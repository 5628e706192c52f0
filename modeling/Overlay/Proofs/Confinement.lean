import Overlay.Proofs.Lookups
import Overlay.Proofs.Spelling

/-!
# Resources stay inside their origins

A resource name is looked up only if it goes down from an origin: if it is not empty, does not start
at the root or with a dot, and does not lead up anywhere. Every other name is refused by all
look-ups, whatever the files are. The place of a resource in a directory has the components of the
directory and behind them those of the name, which are one or more names.
-/

namespace Overlay

namespace Path

/-- The anchor of a text stays when something is written behind it, from a slash on. -/
theorem split_append_slash {cs : List Char} (hne : cs ≠ []) (rest : List Char) :
    (split (cs ++ '/' :: rest)).1 = (split cs).1 := by
  obtain ⟨c, cs, rfl⟩ := List.exists_cons_of_ne_nil hne
  by_cases hslash : c = '/'
  · rw [hslash]
    rfl
  · by_cases hdot : c = '.'
    · rw [hdot]
      cases cs with
      | nil => rfl
      | cons d cs =>
        by_cases hd : d = '/'
        · rw [hd]
          rfl
        · simp [split, hd]
    · simp [split, hslash, hdot]

/-- What is written behind a slash adds the components of its parts. -/
theorem componentsOf_append_slash (cs rest : List Char) :
    componentsOf (cs ++ '/' :: rest) = componentsOf (cs ++ ['/']) ++
      (Text.pieces (· == '/') rest).filterMap component? := by
  have hanchor : (split (cs ++ '/' :: rest)).1 = (split (cs ++ ['/'])).1 := by
    by_cases hne : cs = []
    · rw [hne]
      rfl
    · rw [split_append_slash hne, split_append_slash hne]
  have hpieces (ys : List Char) : Text.pieces (· == '/') (cs ++ '/' :: ys) =
      Text.pieces (· == '/') cs ++ Text.pieces (· == '/') ys :=
    Text.pieces_append (p := (· == '/')) cs (beq_self_eq_true '/') ys
  have hnone : (Text.pieces (· == '/') []).filterMap component? = [] := rfl
  rw [componentsOf_eq, componentsOf_eq, hanchor, hpieces, hpieces, List.filterMap_append,
    List.filterMap_append, hnone, List.append_nil, List.append_assoc]

/-- A slash at the end adds no component. -/
theorem componentsOf_append_slash_nil {cs : List Char} (hne : cs ≠ []) :
    componentsOf (cs ++ ['/']) = componentsOf cs := by
  have hpieces : Text.pieces (· == '/') (cs ++ ['/']) = Text.pieces (· == '/') cs ++ [[]] :=
    Text.pieces_append (p := (· == '/')) cs (beq_self_eq_true '/') []
  have hnone : [[]].filterMap component? = [] := rfl
  rw [componentsOf_eq, componentsOf_eq, split_append_slash hne, hpieces, List.filterMap_append,
    hnone, List.append_nil]

section Names

variable {resource : String}

/-- The names that a resource name goes down through. -/
def namesOf (resource : String) : List (List Char) :=
  (partsOf resource).filter fun part => !isIdle part

/-- A resource name that stays below a place has no components but names. -/
theorem components_of_staysBelow (h : staysBelow resource = true) :
    (Path.mk resource).components = (namesOf resource).map .name := by
  obtain ⟨hfirst, hup⟩ := staysBelow_iff.1 h
  rw [components_of_split (split_of_first hfirst), namesOf]
  generalize partsOf resource = parts at hup
  induction parts with
  | nil => rfl
  | cons part parts ih =>
    have hrest := ih fun hmem => hup (List.mem_cons_of_mem part hmem)
    rw [List.filterMap_cons, List.filter_cons]
    rcases component?_cases part with ⟨hidle, hc⟩ | ⟨rfl, -⟩ | ⟨hidle, -, hc⟩
    · rw [hidle, hc]
      exact hrest
    · exact absurd List.mem_cons_self hup
    · rw [hidle, hc]
      exact congrArg (Component.name part :: ·) hrest

/-- It has at least one. -/
theorem namesOf_ne_nil (h : staysBelow resource = true) : namesOf resource ≠ [] := by
  obtain ⟨hfirst, -⟩ := staysBelow_iff.1 h
  obtain ⟨part, parts, hparts⟩ := List.exists_cons_of_ne_nil
    (Text.pieces_ne_nil (· == '/') resource.toList)
  rw [partsOf, hparts] at hfirst
  rw [namesOf, partsOf, hparts, List.filter_cons, hfirst part rfl]
  exact List.cons_ne_nil part _

/-- The path of a resource below a directory has the components of the directory and those of the
resource name. -/
theorem components_join (d : Path) (h : staysBelow resource = true) :
    (d.join resource).components = d.components ++ (Path.mk resource).components := by
  obtain ⟨hfirst, -⟩ := staysBelow_iff.1 h
  have hresource : (Path.mk resource).components =
      (Text.pieces (· == '/') resource.toList).filterMap component? :=
    components_of_split (split_of_first hfirst)
  rw [join, if_neg (head?_ne_of_staysBelow h), hresource]
  split
  · rename_i hopen
    rcases hopen with hempty | hslash
    · rw [components, components, String.toList_append, hempty, String.toList_empty,
        List.nil_append, ← hresource]
      rfl
    · obtain ⟨front, hfront⟩ := List.getLast?_eq_some_iff.1 hslash
      rw [components, components, String.toList_append, hfront, List.append_assoc,
        List.singleton_append, componentsOf_append_slash]
  · rename_i hopen
    have hne : d.text.toList ≠ [] := fun hnil => hopen (Or.inl (String.toList_eq_nil_iff.1 hnil))
    rw [components, components, String.toList_append, String.toList_append,
      show "/".toList = ['/'] from rfl, List.append_assoc, List.singleton_append,
      componentsOf_append_slash, componentsOf_append_slash_nil hne]

/-- A path goes down from a directory through the names of a resource, of which there are some, and
which are neither empty nor dots nor lead up. -/
structure Descends (d : Path) (resource : String) (p : Path) (names : List (List Char)) :
    Prop where
  /-- There are names. -/
  ne_nil : names ≠ []
  /-- They are plain. -/
  plain : ∀ name ∈ names, name ≠ [] ∧ name ≠ ['.'] ∧ name ≠ ['.', '.'] ∧ '/' ∉ name
  /-- They are the components of the resource. -/
  resource_eq : (Path.mk resource).components = names.map .name
  /-- They follow the components of the directory. -/
  components_eq : p.components = d.components ++ names.map .name

/-- The path of a resource below a directory goes down through the resource's names. -/
theorem descends_join (d : Path) (h : staysBelow resource = true) :
    Descends d resource (d.join resource) (namesOf resource) where
  ne_nil := namesOf_ne_nil h
  plain := by
    intro name hname
    obtain ⟨hmem, hidle⟩ := List.mem_filter.1 hname
    have hmeant : ¬(name = [] ∨ name = ['.']) := by
      rw [← isIdle_iff]
      simpa using hidle
    refine ⟨fun he => hmeant (Or.inl he), fun he => hmeant (Or.inr he), ?_, ?_⟩
    · rintro rfl
      exact (staysBelow_iff.1 h).2 hmem
    · intro hslash
      have := Text.not_of_mem_pieces hmem hslash
      simp at this
  resource_eq := components_of_staysBelow h
  components_eq := by rw [components_join d h, components_of_staysBelow h]

/-- A resource name strays if it is empty, starts at the root or with a dot, or leads up. -/
def Strays (resource : String) : Prop :=
  resource = "" ∨ (Path.mk resource).isAbsolute = true ∨
    (Path.mk resource).components.head? = some .here ∨ .up ∈ (Path.mk resource).components

/-- The names that stray are those that do not stay below a place. -/
theorem strays_iff : Strays resource ↔ staysBelow resource = false := by
  constructor
  · intro h
    refine eq_false_of_ne_true fun hb => ?_
    have hnames := components_of_staysBelow hb
    rcases h with rfl | habsolute | hhere | hup
    · cases hb
    · rw [isAbsolute, beq_iff_eq] at habsolute
      exact head?_ne_of_staysBelow hb habsolute
    · rw [hnames] at hhere
      obtain ⟨name, -, hname⟩ := List.mem_map.1 (List.mem_of_head? hhere)
      cases hname
    · rw [hnames] at hup
      obtain ⟨name, -, hname⟩ := List.mem_map.1 hup
      cases hname
  · intro h
    cases hanchor : (split resource.toList).1 with
    | root =>
      refine Or.inr (Or.inl ?_)
      unfold split at hanchor
      split at hanchor
      · rename_i rest hcs
        rw [isAbsolute, hcs]
        rfl
      all_goals cases hanchor
    | here =>
      refine Or.inr (Or.inr (Or.inl ?_))
      rw [components, componentsOf_eq, hanchor]
      rfl
    | none =>
      by_cases hempty : resource = ""
      · exact Or.inl hempty
      · have hne : resource.toList ≠ [] := fun hnil => hempty (String.toList_eq_nil_iff.1 hnil)
        -- the first part means something, so it must be a later one that leads up
        have hup : ['.', '.'] ∈ partsOf resource := by
          by_contra hnone
          rw [staysBelow_iff.2 ⟨first_of_split hne hanchor, hnone⟩] at h
          cases h
        refine Or.inr (Or.inr (Or.inr ?_))
        rw [components, componentsOf_eq]
        exact List.mem_append_right _ (List.mem_filterMap.2 ⟨_, hup, rfl⟩)

end Names

end Path

namespace Origin

variable {t : FileTree} {s : LookupState} {o : Origin} {resource : String}

/-- A location at which an origin may keep a resource: a file in a directory is reached from there
through the resource's names. -/
inductive Keeps (o : Origin) (resource : String) : Location → Prop
  /-- A file below a directory. -/
  | file {p : Path} {names : List (List Char)} (directory : o.kind = .directory)
      (descends : Path.Descends o.location resource p names) : Keeps o resource (.file p)
  /-- An entry of an archive. -/
  | entry (archive : o.kind = .archive) : Keeps o resource (.entry o.location resource)

/-- An origin keeps a resource that stays below it. -/
theorem keeps_locate (o : Origin) (h : Path.staysBelow resource = true) :
    o.Keeps resource (o.locate resource) := by
  unfold locate
  cases hk : o.kind with
  | directory => exact .file hk (Path.descends_join o.location h)
  | archive => exact .entry hk

/-- An origin is not asked for a name that does not stay below it. -/
theorem holds_of_not_staysBelow (h : Path.staysBelow resource = false) (t : FileTree)
    (o : Origin) (s : LookupState) : o.holds t resource s = (false, s) := by
  rw [holds, h]
  rfl

/-- Nothing is read of it for such a name. -/
theorem readResource_of_not_staysBelow (h : Path.staysBelow resource = false) (t : FileTree)
    (o : Origin) (s : LookupState) : o.readResource t resource s = (.ok none, s) := by
  rw [readResource, h]
  rfl

end Origin

namespace Registry

variable {t : FileTree} {r : Registry} {s : LookupState} {os : List Origin} {resource : String}

/-- All look-ups refuse a resource: they find nothing, read nothing, open no view and note
nothing. -/
structure Refuses (t : FileTree) (s : LookupState) (r : Registry) (resource : String) : Prop where
  /-- No place is found. -/
  find?_eq : r.find? t resource s = (none, s)
  /-- None is listed. -/
  findAll_eq : r.findAll t resource s = ([], s)
  /-- Nothing is read, and nothing fails. -/
  resolve?_eq : r.resolve? t resource s = (.ok none, s)
  /-- No copies are read, and nothing fails. -/
  resolveAll_eq : r.resolveAll t resource s = (.ok [], s)

/-- A name that does not stay below an origin is refused, whatever the files are. -/
theorem refuses_of_not_staysBelow (h : Path.staysBelow resource = false) (t : FileTree)
    (s : LookupState) (r : Registry) : r.Refuses t s resource := by
  have hheld := Origin.holds_of_not_staysBelow h t
  have hread := Origin.readResource_of_not_staysBelow h t
  constructor
  case find?_eq =>
    unfold find?
    induction r.order with
    | nil => rfl
    | cons o os ih => rw [findIn, hheld]; exact ih
  case findAll_eq =>
    unfold findAll
    induction r.order with
    | nil => rfl
    | cons o os ih => rw [findAllIn, hheld]; exact ih
  case resolve?_eq =>
    unfold resolve?
    induction r.order with
    | nil => rfl
    | cons o os ih => rw [resolveIn, hread]; exact ih
  case resolveAll_eq =>
    unfold resolveAll
    induction r.order with
    | nil => rfl
    | cons o os ih => rw [resolveAllIn, hread]; exact ih

/-- A listed place is that of one of the origins. -/
theorem exists_of_mem_findAllIn {l : Location} (h : l ∈ (findAllIn t resource os s).1) :
    ∃ o ∈ os, l = o.locate resource := by
  induction os generalizing s with
  | nil => cases h
  | cons o os ih =>
    rw [findAllIn] at h
    split at h
    · rcases List.mem_cons.1 h with rfl | h
      · exact ⟨o, List.mem_cons_self, rfl⟩
      · obtain ⟨o', ho', he⟩ := ih h
        exact ⟨o', List.mem_cons_of_mem o ho', he⟩
    · obtain ⟨o', ho', he⟩ := ih h
      exact ⟨o', List.mem_cons_of_mem o ho', he⟩

/-- A place that is found is that of one of the origins. -/
theorem exists_of_findIn {l : Location} (h : (findIn t resource os s).1 = some l) :
    ∃ o ∈ os, l = o.locate resource := by
  induction os generalizing s with
  | nil => cases h
  | cons o os ih =>
    rw [findIn] at h
    split at h
    · exact ⟨o, List.mem_cons_self, (Option.some.inj h).symm⟩
    · obtain ⟨o', ho', he⟩ := ih h
      exact ⟨o', List.mem_cons_of_mem o ho', he⟩

/-- The copies that are read lie where their origins, which are in the list, keep them. -/
theorem mem_of_resolveAllIn {l : List Found} (h : (resolveAllIn t resource os s).1 = .ok l)
    {x : Found} (hx : x ∈ l) : x.1 ∈ os ∧ x.2.location = x.1.locate resource := by
  induction os generalizing s l with
  | nil =>
    obtain rfl : [] = l := Except.ok.inj h
    cases hx
  | cons o os ih =>
    rw [resolveAllIn] at h
    split at h
    · cases h
    · obtain ⟨hmem, hlocation⟩ := ih h hx
      exact ⟨List.mem_cons_of_mem o hmem, hlocation⟩
    · rename_i found s₁ hread
      split at h
      · cases h
      · rename_i more s₂ hmore
        obtain rfl : (o, found) :: more = l := Except.ok.inj h
        rcases List.mem_cons.1 hx with rfl | hx
        · exact ⟨List.mem_cons_self,
            Origin.location_of_readResource (congrArg Prod.fst hread)⟩
        · obtain ⟨hmem, hlocation⟩ := ih (congrArg Prod.fst hmore) hx
          exact ⟨List.mem_cons_of_mem o hmem, hlocation⟩

/-- A failure to read all copies is that of one of the origins. -/
theorem error_of_resolveAllIn {e : LoadError} (h : (resolveAllIn t resource os s).1 = .error e) :
    ∃ o ∈ os, ∃ cause, e = .read resource (o.locate resource) cause := by
  induction os generalizing s with
  | nil => cases h
  | cons o os ih =>
    rw [resolveAllIn] at h
    split at h
    · rename_i e' s₁ hread
      obtain rfl : e' = e := Except.error.inj h
      exact ⟨o, List.mem_cons_self, Origin.error_of_readResource (congrArg Prod.fst hread)⟩
    · obtain ⟨o', ho', he⟩ := ih h
      exact ⟨o', List.mem_cons_of_mem o ho', he⟩
    · split at h
      · rename_i e' s₂ hmore
        obtain rfl : e' = e := Except.error.inj h
        obtain ⟨o', ho', he⟩ := ih (congrArg Prod.fst hmore)
        exact ⟨o', List.mem_cons_of_mem o ho', he⟩
      · cases h

/-- Every place that the look-ups of a resource tell is one at which a registered origin may keep
it. -/
structure Confines (t : FileTree) (s : LookupState) (r : Registry) (resource : String) : Prop where
  /-- The place that is found. -/
  find? : ∀ l, (r.find? t resource s).1 = some l → ∃ o ∈ r.order, o.Keeps resource l
  /-- Each place that is listed. -/
  findAll : ∀ l ∈ (r.findAll t resource s).1, ∃ o ∈ r.order, o.Keeps resource l
  /-- The place of the copy that is read, in the origin that is told with it. -/
  resolve? : ∀ o found, (r.resolve? t resource s).1 = .ok (some (o, found)) →
    o ∈ r.order ∧ o.Keeps resource found.location
  /-- The place of each copy that is read, in the origin that is told with it. -/
  resolveAll : ∀ l, (r.resolveAll t resource s).1 = .ok l →
    ∀ x ∈ l, x.1 ∈ r.order ∧ x.1.Keeps resource x.2.location
  /-- The place at which a copy cannot be read. -/
  unreadable : ∀ e, (r.resolve? t resource s).1 = .error e ∨
      (r.resolveAll t resource s).1 = .error e →
    ∃ o ∈ r.order, ∃ l cause, e = .read resource l cause ∧ o.Keeps resource l

/-- A registry confines the names that stay below an origin. -/
theorem confines_of_staysBelow (h : Path.staysBelow resource = true) (t : FileTree)
    (s : LookupState) (r : Registry) : r.Confines t s resource := by
  have hkeeps := fun o : Origin => o.keeps_locate h
  constructor
  case find? =>
    intro l hl
    obtain ⟨o, ho, rfl⟩ := exists_of_findIn hl
    exact ⟨o, ho, hkeeps o⟩
  case findAll =>
    intro l hl
    obtain ⟨o, ho, rfl⟩ := exists_of_mem_findAllIn hl
    exact ⟨o, ho, hkeeps o⟩
  case resolve? =>
    intro o found hfound
    have hlocation := location_of_resolveIn hfound
    exact ⟨mem_of_resolveIn (Prod.ext hfound rfl), hlocation ▸ hkeeps o⟩
  case resolveAll =>
    intro l hl x hx
    obtain ⟨ho, hlocation⟩ := mem_of_resolveAllIn hl hx
    exact ⟨ho, hlocation ▸ hkeeps x.1⟩
  case unreadable =>
    rintro e (he | he)
    · obtain ⟨o, ho, cause, rfl⟩ := error_of_resolveIn he
      exact ⟨o, ho, _, cause, rfl, hkeeps o⟩
    · obtain ⟨o, ho, cause, rfl⟩ := error_of_resolveAllIn he
      exact ⟨o, ho, _, cause, rfl, hkeeps o⟩

/-- A registry that refuses a resource tells no place of it. -/
theorem Refuses.confines (h : r.Refuses t s resource) : r.Confines t s resource := by
  obtain ⟨hfind, hfindAll, hresolve, hresolveAll⟩ := h
  constructor
  case find? =>
    intro l hl
    rw [hfind] at hl
    cases hl
  case findAll =>
    intro l hl
    rw [hfindAll] at hl
    cases hl
  case resolve? =>
    intro o found hfound
    rw [hresolve] at hfound
    cases hfound
  case resolveAll =>
    intro l hl x hx
    rw [hresolveAll] at hl
    obtain rfl : [] = l := Except.ok.inj hl
    cases hx
  case unreadable =>
    rintro e (he | he)
    · rw [hresolve] at he
      cases he
    · rw [hresolveAll] at he
      cases he

/-- Any other name is found in an archive that has it. -/
theorem exists_not_refuses (h : Path.staysBelow resource = true) :
    ∃ t s r, ¬Refuses t s r resource := by
  let o : Origin := ⟨⟨"/x.tar"⟩, .archive⟩
  let i : ArchiveIndex := ⟨o.location, [(resource, ByteArray.empty)]⟩
  let s : LookupState := ⟨ArchiveTable.empty.insertIfAbsent o.location i, []⟩
  have hlive : s.archives.get? o.location = some i := by
    rw [ArchiveTable.get?_insertIfAbsent, if_pos rfl]
    rfl
  have hread : i.read? resource = some ByteArray.empty := by simp [i, ArchiveIndex.read?]
  refine ⟨⟨[], []⟩, s, only o, fun hrefuses => ?_⟩
  have hfound := hrefuses.resolve?_eq
  rw [resolve?_only_of_live rfl hlive h hread] at hfound
  cases hfound

/-- Resource names cannot lead out of an origin: on all files, through all views, every place that
the look-ups in a registry tell is one at which a registered origin may keep the resource; and the
names that every registry refuses on all files, without opening or noting anything, are those that
are empty, start at the root or with a dot, or lead up anywhere. -/
theorem confines_and_refuses_iff (resource : String) :
    (∀ t s r, Confines t s r resource) ∧
      (Path.Strays resource ↔ ∀ t s r, Refuses t s r resource) := by
  rw [Path.strays_iff]
  refine ⟨fun t s r => ?_, fun h t s r => refuses_of_not_staysBelow h t s r, fun h => ?_⟩
  · cases hb : Path.staysBelow resource with
    | true => exact confines_of_staysBelow hb t s r
    | false => exact (refuses_of_not_staysBelow hb t s r).confines
  · refine eq_false_of_ne_true fun hb => ?_
    obtain ⟨t, s, r, hnot⟩ := exists_not_refuses hb
    exact hnot (h t s r)

end Registry

end Overlay
