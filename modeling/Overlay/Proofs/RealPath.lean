import Overlay.FileTree

/-!
# Real paths

Following a path ends at a settled place: one that is reached from the root by plain names through
directories, without a link. The path of a settled place leads back to it, and its components are
the root and the names, so two real paths with the same components are the same text.
-/

namespace Overlay.FileTree

/-- What the names of places that a walk enters are like. -/
structure IsPlain (step : String) : Prop where
  /-- The name is not empty. -/
  ne_empty : step ≠ ""
  /-- The name is not that of the directory itself. -/
  ne_here : step ≠ "."
  /-- The name is not that of the directory above. -/
  ne_up : step ≠ ".."
  /-- The name has no slash. -/
  slashless : '/' ∉ step.toList
  /-- The name is not too long. -/
  short : step.utf8ByteSize ≤ nameLimit

/-- A plain name means something. -/
theorem IsPlain.not_idle {step : String} (h : IsPlain step) : Path.isIdle step.toList = false := by
  simp only [Path.isIdle, Bool.or_eq_false_iff, beq_eq_false_iff_ne]
  constructor
  · exact fun he => h.ne_empty (String.toList_inj.1 he)
  · exact fun he => h.ne_here (String.toList_inj.1 he)

/-- Plain names mean something. -/
theorem not_idle_of_isPlain {names : List String} (h : ∀ step ∈ names, IsPlain step) :
    ∀ part ∈ names.map String.toList, Path.isIdle part = false := by
  intro part hpart
  obtain ⟨step, hstep, rfl⟩ := List.mem_map.1 hpart
  exact (h step hstep).not_idle

/-- They have no slashes. -/
theorem slashless_of_isPlain {names : List String} (h : ∀ step ∈ names, IsPlain step) :
    ∀ part ∈ names.map String.toList, '/' ∉ part := by
  intro part hpart
  obtain ⟨step, hstep, rfl⟩ := List.mem_map.1 hpart
  exact (h step hstep).slashless

/-- The places at which following ends. -/
inductive Settled (t : FileTree) : Place → Prop
  /-- The root. -/
  | root : Settled t []
  /-- A node in a settled directory, under a plain name, that is not a link. -/
  | enter {place : Place} {step : String} {n : Node} (above : Settled t place)
      (directory : t.directoryAt place = true) (plain : IsPlain step)
      (node : t.nodeAt? (place ++ [step]) = some n) (unlinked : ∀ target, n ≠ .link target) :
      Settled t (place ++ [step])

/-- The directory above a settled place is settled. -/
theorem Settled.dropLast {t : FileTree} {place : Place} (h : Settled t place) :
    Settled t place.dropLast := by
  cases h with
  | root => exact .root
  | enter above directory plain node unlinked =>
    rw [List.dropLast_concat]
    exact above

/-- The names of a settled place are plain. -/
theorem Settled.isPlain {t : FileTree} {place : Place} (h : Settled t place) :
    ∀ step ∈ place, IsPlain step := by
  induction h with
  | root => simp
  | enter above directory plain node unlinked ih =>
    intro step hstep
    rw [List.mem_append, List.mem_singleton] at hstep
    rcases hstep with hstep | rfl
    · exact ih step hstep
    · exact plain

/-- The steps of a path have no slashes. -/
theorem slashless_of_mem_steps {p : Path} {step : String} (h : step ∈ steps p) :
    '/' ∉ step.toList := by
  obtain ⟨piece, hpiece, rfl⟩ := List.mem_map.1 h
  rw [String.toList_ofList]
  intro hslash
  have := Text.not_of_mem_pieces hpiece hslash
  simp at this

theorem steps_ne_nil (p : Path) : steps p ≠ [] := by
  intro h
  exact Text.pieces_ne_nil _ _ (List.map_eq_nil_iff.1 h)

/-- A link in a settled directory starts from a settled place. -/
theorem Settled.startOf {t : FileTree} {place : Place} (h : Settled t place) (p : Path) :
    Settled t (startOf p place) := by
  unfold FileTree.startOf
  split
  · exact .root
  · exact h

/-- Steps from a settled place end at a settled place, if what links hand over does. -/
theorem Settled.walkWith {t : FileTree} {follow : Place → List String → Except IoError Place}
    (hf : ∀ place steps r, Settled t place → (∀ step ∈ steps, '/' ∉ step.toList) →
      follow place steps = .ok r → Settled t r) {place : Place} {steps : List String} {r : Place}
    (hp : Settled t place) (hs : ∀ step ∈ steps, '/' ∉ step.toList)
    (h : t.walkWith follow place steps = .ok r) : Settled t r := by
  induction steps generalizing place with
  | nil =>
    obtain rfl := Except.ok.inj h
    exact hp
  | cons step rest ih =>
    have hrest : ∀ step ∈ rest, '/' ∉ step.toList := fun s hs' => hs s (List.mem_cons_of_mem _ hs')
    rw [FileTree.walkWith] at h
    split at h
    · cases h
    · rename_i hd
      split at h
      · exact ih hp hrest h
      · rename_i hidle
        split at h
        · exact ih hp.dropLast hrest h
        · rename_i hup
          split at h
          · cases h
          · rename_i hlong
            split at h
            · cases h
            · rename_i target hn
              refine hf _ _ _ (hp.startOf target) ?_ h
              intro s hs'
              rcases List.mem_append.1 hs' with hs' | hs'
              · exact slashless_of_mem_steps hs'
              · exact hrest s hs'
            · rename_i n hl hn
              have hplain : IsPlain step := by
                refine ⟨fun he => hidle (Or.inl he), fun he => hidle (Or.inr he), hup, ?_, ?_⟩
                · exact hs step List.mem_cons_self
                · exact Nat.le_of_not_lt hlong
              have hd' : t.directoryAt place = true := by simpa using hd
              refine ih (.enter hp hd' hplain hn ?_) hrest h
              rintro target rfl
              exact hl target rfl

/-- Steps from a settled place end at a settled place. -/
theorem Settled.walk {t : FileTree} (links : Nat) {place : Place} {steps : List String} {r : Place}
    (hp : Settled t place) (hs : ∀ step ∈ steps, '/' ∉ step.toList)
    (h : t.walk links place steps = .ok r) : Settled t r := by
  induction links generalizing place steps r with
  | zero =>
    refine hp.walkWith ?_ hs h
    intro place steps r _ _ he
    cases he
  | succ links ih => exact hp.walkWith (fun _ _ _ hp hs h => ih hp hs h) hs h

/-- Steps through the names of a settled place lead to it. -/
theorem Settled.walkWith_append {t : FileTree} {place : Place} (h : Settled t place)
    (follow : Place → List String → Except IoError Place) (rest : List String) :
    t.walkWith follow [] (place ++ rest) = t.walkWith follow place rest := by
  induction h generalizing rest with
  | root => rfl
  | @enter place step n above directory plain node unlinked ih =>
    rw [List.append_assoc, ih, List.singleton_append, FileTree.walkWith, directory, node]
    have hidle : ¬(step = "" ∨ step = ".") := by
      rintro (he | he)
      · exact plain.ne_empty he
      · exact plain.ne_here he
    rw [Bool.not_true, if_neg Bool.false_ne_true, if_neg hidle, if_neg plain.ne_up,
      if_neg (Nat.not_lt.2 plain.short)]
    cases n with
    | link target => exact absurd rfl (unlinked target)
    | _ => rfl

/-- The names of a settled place lead to it through no link. -/
theorem Settled.walk_self {t : FileTree} {place : Place} (h : Settled t place) (links : Nat) :
    t.walk links [] place = .ok place := by
  have hwalk : ∀ follow, t.walkWith follow [] place = .ok place := by
    intro follow
    have := h.walkWith_append follow []
    rwa [List.append_nil] at this
  cases links <;> exact hwalk _

/-- The path of a place is a slash and the names with slashes between them. -/
theorem toList_pathOf (place : Place) :
    (pathOf place).text.toList = '/' :: Text.joined '/' (place.map String.toList) := by
  rw [pathOf, String.toList_append, String.toList_intercalate, Text.joined_eq_intercalate]
  rfl

/-- The path of a place is absolute. -/
theorem isAbsolute_pathOf (place : Place) : (pathOf place).isAbsolute = true := by
  rw [Path.isAbsolute, toList_pathOf]
  rfl

/-- The names of a settled place are what its path is cut into. -/
theorem Settled.pieces {t : FileTree} {place : Place} (h : Settled t place) (hne : place ≠ []) :
    Text.pieces (· == '/') (Text.joined '/' (place.map String.toList)) =
      place.map String.toList :=
  Text.pieces_joined (by simpa using hne) (slashless_of_isPlain h.isPlain)

/-- The path of a settled place leads to it, unless a name in it holds a null character. -/
theorem Settled.resolve_pathOf {t : FileTree} {place : Place} (h : Settled t place) :
    t.resolve (pathOf place) = .ok place ∨ t.resolve (pathOf place) = .error .nullInPath := by
  unfold resolve
  split
  · exact Or.inr rfl
  · left
    have htext : (pathOf place).text ≠ "" := by
      intro he
      have := toList_pathOf place
      rw [he] at this
      cases this
    rw [if_neg htext, FileTree.startOf, if_pos (isAbsolute_pathOf place), steps,
      if_pos (isAbsolute_pathOf place), toList_pathOf, List.drop_one, List.tail_cons]
    by_cases hne : place = []
    · subst hne
      rfl
    · rw [h.pieces hne, List.map_map]
      have hid : (String.ofList ∘ String.toList) = id := funext fun _ => String.ofList_toList
      rw [hid, List.map_id]
      exact h.walk_self linkLimit

/-- A plain name is a component of its own. -/
theorem IsPlain.component? {step : String} (h : IsPlain step) :
    Path.component? step.toList = some (.name step.toList) := by
  have hup : step.toList ≠ ['.', '.'] := fun he => h.ne_up (String.toList_inj.1 he)
  simp only [Path.component?, h.not_idle, hup, Bool.false_eq_true, if_false]

theorem filterMap_component? {names : List String} (h : ∀ step ∈ names, IsPlain step) :
    names.filterMap (Path.component? ∘ String.toList) =
      names.map fun step => Path.Component.name step.toList := by
  induction names with
  | nil => rfl
  | cons step rest ih =>
    have hrest := ih fun s hs => h s (List.mem_cons_of_mem step hs)
    rw [List.filterMap_cons, Function.comp_apply, (h step List.mem_cons_self).component?, hrest]
    rfl

/-- The components of the path of a settled place are the root and the names. -/
theorem Settled.components_pathOf {t : FileTree} {place : Place} (h : Settled t place) :
    (pathOf place).components = .root :: place.map fun step => .name step.toList := by
  rw [Path.components, toList_pathOf, Path.componentsOf, Path.split]
  apply congrArg (Path.Component.root :: ·)
  by_cases hne : place = []
  · subst hne
    rfl
  · have hbody : Text.joined '/' (place.map String.toList) ≠ [] := by
      intro he
      have hpieces := h.pieces hne
      rw [he] at hpieces
      obtain ⟨step, rest, rfl⟩ := List.exists_cons_of_ne_nil hne
      have hstep : step.toList = [] := (List.cons.inj hpieces).1.symm
      exact (h.isPlain step List.mem_cons_self).ne_empty (String.toList_inj.1 hstep)
    rw [Path.segmentsOf, if_neg hbody, h.pieces hne, List.filterMap_map]
    exact filterMap_component? h.isPlain

/-- Settled places with paths of the same components are the same, also in two trees. -/
theorem Settled.eq_of_components {t t' : FileTree} {place place' : Place} (h : Settled t place)
    (h' : Settled t' place') (he : (pathOf place).components = (pathOf place').components) :
    place = place' := by
  rw [h.components_pathOf, h'.components_pathOf] at he
  have hname : ∀ step step' : String,
      Path.Component.name step.toList = .name step'.toList → step = step' := by
    intro step step' hstep
    exact String.toList_inj.1 (Path.Component.name.inj hstep)
  exact (List.map_inj_right hname).1 (List.cons.inj he).2

/-- The working directory of a process is a real path: while a directory stands there, its path
leads to it. -/
def HasRealWorkingDirectory (t : FileTree) : Prop :=
  t.directoryAt t.workingDirectory = true →
    t.resolve (pathOf t.workingDirectory) = .ok t.workingDirectory

/-- Only a directory can be stepped from. -/
theorem directoryAt_of_walk {t : FileTree} {links : Nat} {place r : Place} {steps : List String}
    (hs : steps ≠ []) (h : t.walk links place steps = .ok r) : t.directoryAt place = true := by
  obtain ⟨step, rest, rfl⟩ := List.exists_cons_of_ne_nil hs
  have hstep : ∀ follow, t.walkWith follow place (step :: rest) = .ok r →
      t.directoryAt place = true := by
    intro follow h
    rw [FileTree.walkWith] at h
    split at h
    · cases h
    · rename_i hd
      simpa using hd
  cases links <;> exact hstep _ h

/-- Steps that end with an empty name or a dot end at a directory. -/
theorem directoryAt_of_idle_end {t : FileTree} {links : Nat} {place r : Place}
    {front : List String} {last : String} (hlast : last = "" ∨ last = ".")
    (h : t.walk links place (front ++ [last]) = .ok r) : t.directoryAt r = true := by
  have hwalk : ∀ follow : Place → List String → Except IoError Place,
      (∀ place front r, follow place (front ++ [last]) = .ok r → t.directoryAt r = true) →
      ∀ front place r, t.walkWith follow place (front ++ [last]) = .ok r →
        t.directoryAt r = true := by
    intro follow hf front
    induction front with
    | nil =>
      intro place r h
      rw [List.nil_append, FileTree.walkWith] at h
      split at h
      · cases h
      · rename_i hd
        obtain rfl := Except.ok.inj h
        simpa using hd
    | cons step front ih =>
      intro place r h
      rw [List.cons_append, FileTree.walkWith] at h
      split at h
      · cases h
      · split at h
        · exact ih _ _ h
        · split at h
          · exact ih _ _ h
          · split at h
            · cases h
            · split at h
              · cases h
              · rename_i target hn
                rw [← List.append_assoc] at h
                exact hf _ _ _ h
              · exact ih _ _ h
  induction links generalizing place front r with
  | zero =>
    refine hwalk _ ?_ front place r h
    intro place front r he
    cases he
  | succ links ih => exact hwalk _ (fun _ _ _ he => ih he) front place r h

/-- Steps end at a settled place if they start at the root or at a settled directory. -/
theorem settled_of_walk {t : FileTree} {p : Path} {base place : Place}
    (hbase : t.directoryAt base = true → Settled t base)
    (h : t.walk linkLimit (startOf p base) (steps p) = .ok place) : Settled t place := by
  have hstart : Settled t (FileTree.startOf p base) := by
    unfold FileTree.startOf at h ⊢
    split
    · exact .root
    · rename_i hrelative
      rw [if_neg hrelative] at h
      exact hbase (directoryAt_of_walk (steps_ne_nil p) h)
  exact hstart.walk linkLimit (fun step hstep => slashless_of_mem_steps hstep) h

/-- A path leads where its steps do. -/
theorem walk_of_resolve {t : FileTree} {p : Path} {place : Place} (h : t.resolve p = .ok place) :
    t.walk linkLimit (startOf p t.workingDirectory) (steps p) = .ok place := by
  unfold resolve at h
  split at h
  · cases h
  · split at h
    · cases h
    · exact h

/-- The path of a place leads to a settled one, if anywhere. -/
theorem settled_of_resolve_pathOf {t : FileTree} {base place : Place}
    (h : t.resolve (pathOf base) = .ok place) : Settled t place := by
  have hwalk := walk_of_resolve h
  rw [FileTree.startOf, if_pos (isAbsolute_pathOf base)] at hwalk
  exact Settled.root.walk linkLimit (fun step hstep => slashless_of_mem_steps hstep) hwalk

/-- A path leads to a settled place. -/
theorem settled_of_resolve {t : FileTree} (hw : t.HasRealWorkingDirectory) {p : Path}
    {place : Place} (h : t.resolve p = .ok place) : Settled t place :=
  settled_of_walk (fun hd => settled_of_resolve_pathOf (hw hd)) (walk_of_resolve h)

/-- A real path is that of the place that a path leads to. -/
theorem resolve_of_realPath {t : FileTree} {p q : Path} (h : t.realPath p = .ok q) :
    ∃ place, t.resolve p = .ok place ∧ q = pathOf place := by
  unfold realPath at h
  cases hr : t.resolve p with
  | error e =>
    rw [hr] at h
    cases h
  | ok place =>
    rw [hr] at h
    exact ⟨place, rfl, (Except.ok.inj h).symm⟩

/-- A real path is the path of a settled place. -/
theorem settled_of_realPath {t : FileTree} (hw : t.HasRealWorkingDirectory) {p q : Path}
    (h : t.realPath p = .ok q) : ∃ place, Settled t place ∧ q = pathOf place := by
  obtain ⟨place, hr, rfl⟩ := resolve_of_realPath h
  exact ⟨place, settled_of_resolve hw hr, rfl⟩

/-- The node that a path leads to stands at a place. -/
theorem nodeAt?_of_node {t : FileTree} {p : Path} {n : Node} (h : t.node p = .ok n) :
    ∃ place, t.resolve p = .ok place ∧ t.nodeAt? place = some n := by
  unfold node at h
  split at h
  · cases h
  · split at h
    · cases h
    · rename_i place hr
      split at h
      · rename_i hn
        obtain rfl := Except.ok.inj h
        exact ⟨place, hr, hn⟩
      · cases h

/-- No directory stands where a path leads to a file. -/
theorem directoryAt_of_isFile {t : FileTree} {p : Path} (h : t.isFile p = true) :
    ∃ place, t.resolve p = .ok place ∧ t.directoryAt place = false := by
  unfold isFile at h
  split at h
  · rename_i hn
    obtain ⟨place, hr, hat⟩ := nodeAt?_of_node hn
    exact ⟨place, hr, by rw [directoryAt, hat]⟩
  · rename_i hn
    obtain ⟨place, hr, hat⟩ := nodeAt?_of_node hn
    exact ⟨place, hr, by rw [directoryAt, hat]⟩
  · cases h

end Overlay.FileTree
