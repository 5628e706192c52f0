import Mathlib.Data.List.Induction
import Overlay.Location
import Overlay.Proofs.RealPath
import Overlay.SymbolName

/-!
# Code sources of files

A file in a directory is found below the directory's path. Going up one step for each part of the
resource's name that is not empty leads to the directory, and from there up once more for each part
that is a dot, since a step up skips dots. So it leads back to the directory if no part is a dot.
This holds for the resources of symbols when the suffix has no slash: of their parts only the last
can hold a dot, and the last part is neither a dot nor empty when a file stands there.
-/

namespace Overlay

namespace Path

theorem eq_of_toList {p q : Path} (h : p.text.toList = q.text.toList) : p = q := by
  cases p
  cases q
  exact congrArg Path.mk (String.toList_inj.1 h)

/-- The path from the root through some segments. -/
def absolute (segments : List (List Char)) : Path :=
  ⟨String.ofList ('/' :: Text.joined '/' segments)⟩

theorem toList_absolute (segments : List (List Char)) :
    (absolute segments).text.toList = '/' :: Text.joined '/' segments := String.toList_ofList

theorem dropIdleEnd_append_of_idle (front : List (List Char)) {q : List Char}
    (hq : isIdle q = true) : dropIdleEnd (front ++ [q]) = dropIdleEnd front := by
  rw [dropIdleEnd, List.reverse_append, List.reverse_singleton, List.singleton_append,
    List.dropWhile_cons, if_pos hq, dropIdleEnd]

theorem dropIdleEnd_append_of_not_idle (front : List (List Char)) {q : List Char}
    (hq : isIdle q = false) : dropIdleEnd (front ++ [q]) = front ++ [q] := by
  have hq' : ¬isIdle q = true := by simp [hq]
  rw [dropIdleEnd, List.reverse_append, List.reverse_singleton, List.singleton_append,
    List.dropWhile_cons, if_neg hq', List.reverse_cons, List.reverse_reverse]

/-- Segments that mean something are all kept. -/
theorem dropIdleEnd_eq_self {segments : List (List Char)} (h : ∀ q ∈ segments, isIdle q = false) :
    dropIdleEnd segments = segments := by
  cases segments using List.reverseRecOn with
  | nil => rfl
  | append_singleton front q => exact dropIdleEnd_append_of_not_idle front (h q (by simp))

/-- Going up from a segment that means something drops it and the idle ones in front of it. -/
theorem parent?_absolute {front : List (List Char)} {q : List Char}
    (hslash : ∀ r ∈ front ++ [q], '/' ∉ r) (hq : isIdle q = false) :
    (absolute (front ++ [q])).parent? = some (absolute (dropIdleEnd front)) := by
  have hpieces := Text.pieces_joined (by simp) hslash
  have hbody : Text.joined '/' (front ++ [q]) ≠ [] := by
    intro he
    have hmem : q ∈ Text.pieces (· == '/') (Text.joined '/' (front ++ [q])) := by
      rw [hpieces]
      simp
    rw [he, Text.pieces, List.mem_singleton] at hmem
    rw [hmem] at hq
    cases hq
  have hparent : parentOf ('/' :: Text.joined '/' (front ++ [q])) =
      some ('/' :: Text.joined '/' (dropIdleEnd front)) := by
    rw [parentOf, split]
    dsimp only
    rw [segmentsOf, if_neg hbody, hpieces, dropIdleEnd_append_of_not_idle front hq]
    split
    · rename_i he
      simp at he
    · rename_i he
      rw [List.dropLast_concat]
      rfl
  rw [parent?, toList_absolute, hparent]
  rfl

/-- Going up once for each segment that means something leads to where the segments start. -/
theorem ancestor?_absolute {names segments : List (List Char)}
    (hslash : ∀ r ∈ names ++ segments, '/' ∉ r) (hnames : ∀ r ∈ names, isIdle r = false) :
    (absolute (dropIdleEnd (names ++ segments))).ancestor?
      (segments.filter fun q => !isIdle q).length = some (absolute names) := by
  induction segments using List.reverseRecOn with
  | nil =>
    rw [List.append_nil, dropIdleEnd_eq_self hnames]
    rfl
  | append_singleton front q ih =>
    have hfront := ih fun r hr => hslash r (by simp at hr ⊢; tauto)
    rw [← List.append_assoc, List.filter_append, List.length_append]
    cases hq : isIdle q with
    | true =>
      have hnone : ([q].filter fun q => !isIdle q).length = 0 := by simp [hq]
      rw [dropIdleEnd_append_of_idle _ hq, hnone]
      exact hfront
    | false =>
      have hone : ([q].filter fun q => !isIdle q).length = 1 := by simp [hq]
      rw [dropIdleEnd_append_of_not_idle _ hq, hone, ancestor?,
        parent?_absolute (by rwa [List.append_assoc]) hq, Option.bind_some]
      exact hfront

/-- Going up some steps and then some more. -/
theorem ancestor?_add (p : Path) (m n : Nat) :
    p.ancestor? (m + n) = (p.ancestor? m).bind (ancestor? n) := by
  induction m generalizing p with
  | zero =>
    rw [Nat.zero_add]
    rfl
  | succ m ih =>
    rw [Nat.succ_add, ancestor?, ancestor?, Option.bind_assoc]
    exact congrArg p.parent?.bind (funext ih)

/-- The parts of a resource name that are not empty mean something or are dots. -/
theorem depth_eq (resource : String) :
    Location.depth resource =
      ((Text.pieces (· == '/') resource.toList).filter fun q => !isIdle q).length +
        (Text.pieces (· == '/') resource.toList).count ['.'] := by
  rw [Location.depth]
  induction Text.pieces (· == '/') resource.toList with
  | nil => rfl
  | cons q rest ih =>
    rw [List.filter_cons, List.filter_cons, List.count_cons]
    by_cases hnil : q = []
    · subst hnil
      exact ih
    · by_cases hdot : q = ['.']
      · subst hdot
        exact congrArg (· + 1) ih
      · have hidle : isIdle q = false := by simp [isIdle, hnil, hdot]
        have hne : (q != []) = true := by simp [hnil]
        have hother : (q == ['.']) = false := by simp [hdot]
        rw [hidle, hne, hother]
        exact (congrArg (· + 1) ih).trans (Nat.add_right_comm _ _ 1)

/-- A resource name that stays below a place does not start at the root. -/
theorem head?_ne_of_staysBelow {resource : String} (h : staysBelow resource = true) :
    resource.toList.head? ≠ some '/' := by
  intro hhead
  obtain ⟨cs, hcs⟩ : ∃ cs, resource.toList = '/' :: cs := by
    cases hr : resource.toList with
    | nil =>
      rw [hr] at hhead
      cases hhead
    | cons c cs =>
      rw [hr] at hhead
      exact ⟨cs, by rw [Option.some.inj hhead]⟩
  have hroot : Component.root ∈ (Path.mk resource).components := by
    rw [components, hcs, componentsOf, split]
    exact List.mem_cons_self
  rw [staysBelow, Bool.and_eq_true, List.all_eq_true] at h
  exact Bool.false_ne_true (h.2 _ hroot)

/-- The steps of an absolute path are its segments. -/
theorem steps_absolute {segments : List (List Char)} (hne : segments ≠ [])
    (hslash : ∀ r ∈ segments, '/' ∉ r) :
    FileTree.steps (absolute segments) = segments.map String.ofList := by
  have habs : (absolute segments).isAbsolute = true := by
    rw [isAbsolute, toList_absolute]
    rfl
  rw [FileTree.steps, if_pos habs, toList_absolute, List.drop_one, List.tail_cons,
    Text.pieces_joined hne hslash]

end Path

namespace FileTree

/-- The path of a place goes from the root through its names. -/
theorem pathOf_eq_absolute (place : Place) :
    pathOf place = Path.absolute (place.map String.toList) := by
  apply Path.eq_of_toList
  rw [toList_pathOf, Path.toList_absolute]

/-- The path of a settled place below the root does not end with a slash. -/
theorem Settled.getLast?_pathOf {t : FileTree} {place : Place} (h : Settled t place)
    (hne : place ≠ []) : (pathOf place).text.toList.getLast? ≠ some '/' := by
  cases h with
  | root => exact absurd rfl hne
  | @enter place step n above directory plain node unlinked =>
    obtain ⟨pre, hpre⟩ : ∃ pre, Text.joined '/' ((place ++ [step]).map String.toList) =
        pre ++ step.toList := by
      rw [List.map_append, List.map_singleton]
      by_cases hp : place = []
      · subst hp
        exact ⟨[], rfl⟩
      · rw [Text.joined_append '/' (by simpa using hp) (by simp)]
        exact ⟨Text.joined '/' (place.map String.toList) ++ ['/'], by simp [Text.joined]⟩
    intro he
    rw [toList_pathOf, hpre, ← List.cons_append, List.getLast?_append] at he
    cases hlast : step.toList.getLast? with
    | none => exact plain.ne_empty (String.toList_inj.1 (List.getLast?_eq_none_iff.1 hlast))
    | some c =>
      rw [hlast] at he
      obtain rfl := Option.some.inj he
      exact plain.slashless (List.mem_of_getLast? hlast)

/-- A resource of a settled directory lies at the names of the directory and the pieces of its
own name. -/
theorem Settled.join_pathOf {t : FileTree} {place : Place} (h : Settled t place) {resource : String}
    (hr : resource.toList.head? ≠ some '/') :
    (pathOf place).join resource =
      Path.absolute (place.map String.toList ++ Text.pieces (· == '/') resource.toList) := by
  have htext : ((pathOf place).join resource).text.toList =
      '/' :: Text.joined '/' (place.map String.toList ++
        Text.pieces (· == '/') resource.toList) := by
    rw [Path.join, if_neg hr]
    by_cases hne : place = []
    · subst hne
      have hroot : (pathOf []).text.toList.getLast? = some '/' := rfl
      rw [if_pos (Or.inr hroot), String.toList_append, List.map_nil, List.nil_append,
        Text.joined_pieces]
      rfl
    · have hopen :
          ¬((pathOf place).text = "" ∨ (pathOf place).text.toList.getLast? = some '/') := by
        rintro (he | he)
        · have := toList_pathOf place
          rw [he] at this
          cases this
        · exact h.getLast?_pathOf hne he
      rw [if_neg hopen, String.toList_append, String.toList_append, toList_pathOf,
        Text.joined_append '/' (by simpa using hne) (Text.pieces_ne_nil _ _), Text.joined_pieces]
      simp
  apply Path.eq_of_toList
  rw [htext, Path.toList_absolute]

/-- The segments of a resource in a settled directory have no slashes. -/
theorem Settled.slashless_segments {t : FileTree} {place : Place} (h : Settled t place)
    (cs : List Char) :
    ∀ r ∈ place.map String.toList ++ Text.pieces (· == '/') cs, '/' ∉ r := by
  intro r hr
  rcases List.mem_append.1 hr with hr | hr
  · exact slashless_of_isPlain h.isPlain r hr
  · intro hslash
    have := Text.not_of_mem_pieces hr hslash
    simp at this

/-- The name of a file does not end with a slash or a dot behind a slash. -/
theorem Settled.not_idle_of_isFile {t t' : FileTree} {place : Place} (h : Settled t place)
    {resource : String} (hr : resource.toList.head? ≠ some '/')
    (hf : t'.isFile ((pathOf place).join resource) = true) {front : List (List Char)}
    {q : List Char} (hq : Text.pieces (· == '/') resource.toList = front ++ [q]) :
    Path.isIdle q = false := by
  refine eq_false_of_ne_true fun hidle => ?_
  have hlast : String.ofList q = "" ∨ String.ofList q = "." := by
    rw [Path.isIdle, Bool.or_eq_true, beq_iff_eq, beq_iff_eq] at hidle
    rcases hidle with rfl | rfl
    · exact Or.inl rfl
    · exact Or.inr rfl
  have hslash := h.slashless_segments resource.toList
  have hjoin := h.join_pathOf hr
  rw [hq, ← List.append_assoc] at hjoin hslash
  obtain ⟨found, hres, hfile⟩ := directoryAt_of_isFile hf
  have hwalk := walk_of_resolve hres
  rw [hjoin, Path.steps_absolute (by simp) hslash, List.map_append] at hwalk
  have hd := directoryAt_of_idle_end hlast hwalk
  rw [hfile] at hd
  cases hd

/-- Going up from a file of a settled directory once for each part of the resource's name leads to
the directory, and from there up once more for each part that is a dot. -/
theorem Settled.ancestor?_join {t t' : FileTree} {place : Place} (h : Settled t place)
    {resource : String} (hb : Path.staysBelow resource = true)
    (hf : t'.isFile ((pathOf place).join resource) = true) :
    ((pathOf place).join resource).ancestor? (Location.depth resource) =
      (pathOf place).ancestor? ((Text.pieces (· == '/') resource.toList).count ['.']) := by
  have hr := Path.head?_ne_of_staysBelow hb
  obtain ⟨front, q, hq⟩ : ∃ front q, Text.pieces (· == '/') resource.toList = front ++ [q] := by
    have hne := Text.pieces_ne_nil (· == '/') resource.toList
    exact ⟨_, _, (List.dropLast_concat_getLast hne).symm⟩
  have hidle := h.not_idle_of_isFile hr hf hq
  have hslash := h.slashless_segments resource.toList
  have hup := Path.ancestor?_absolute hslash (not_idle_of_isPlain h.isPlain)
  have hkept : Path.dropIdleEnd (place.map String.toList ++
      Text.pieces (· == '/') resource.toList) =
        place.map String.toList ++ Text.pieces (· == '/') resource.toList := by
    rw [hq, ← List.append_assoc, Path.dropIdleEnd_append_of_not_idle _ hidle]
  rw [hkept, ← h.join_pathOf hr, ← pathOf_eq_absolute] at hup
  rw [Path.depth_eq, Path.ancestor?_add, hup, Option.bind_some]

/-- The path of a settled place is its own real path, as far as it has one. -/
theorem Settled.realPath_pathOf {t : FileTree} {place : Place} (h : Settled t place) :
    (match t.realPath (pathOf place) with
      | .ok path => path
      | .error _ => pathOf place) = pathOf place := by
  rcases h.resolve_pathOf with hr | hr <;> rw [realPath, hr] <;> rfl

end FileTree

/-- Only the last part of the resource of a symbol can hold a dot, if the suffix has no slash. -/
theorem SymbolName.dot_not_mem_pieces {suffix : String} (hs : '/' ∉ suffix.toList) (name : String) :
    ∀ q ∈ (Text.pieces (· == '/') (resource name suffix).toList).dropLast, '.' ∉ q := by
  intro q hq
  have hsuffix : ∀ c ∈ suffix.toList, (c == '/') = false := by
    intro c hc
    simp only [beq_eq_false_iff_ne]
    rintro rfl
    exact hs hc
  obtain ⟨front, last, hname, hall⟩ :=
    Text.pieces_append_of_forall (swap namespaceMark '/' name).toList hsuffix
  rw [resource, String.toList_append, hall, List.dropLast_concat] at hq
  have hmem : q ∈ Text.pieces (· == '/') (swap namespaceMark '/' name).toList := by
    rw [hname]
    exact List.mem_append_left _ hq
  intro hdot
  exact not_mem_swap (by decide) name (Text.mem_of_mem_pieces hmem hdot)

namespace FileTree

variable {t : FileTree} {place : Place}

/-- The code source of a symbol's file in a settled directory is the directory. -/
theorem Settled.codeSource?_file (h : Settled t place) {suffix : String}
    (hs : '/' ∉ suffix.toList) {name : String}
    (hb : Path.staysBelow (SymbolName.resource name suffix) = true)
    (hf : t.isFile ((pathOf place).join (SymbolName.resource name suffix)) = true) :
    (Location.file ((pathOf place).join (SymbolName.resource name suffix))).codeSource? t
      (SymbolName.resource name suffix) = some (pathOf place) := by
  have hdot : ['.'] ∉ Text.pieces (· == '/') (SymbolName.resource name suffix).toList := by
    have hne := Text.pieces_ne_nil (· == '/') (SymbolName.resource name suffix).toList
    have hpieces := (List.dropLast_concat_getLast hne).symm
    have hlast := h.not_idle_of_isFile (Path.head?_ne_of_staysBelow hb) hf hpieces
    intro hmem
    rw [hpieces] at hmem
    rcases List.mem_append.1 hmem with hmem | hmem
    · exact SymbolName.dot_not_mem_pieces hs name _ hmem List.mem_cons_self
    · rw [← List.mem_singleton.1 hmem] at hlast
      cases hlast
  have hup := h.ancestor?_join hb hf
  rw [List.count_eq_zero_of_not_mem hdot] at hup
  rw [Location.codeSource?, Location.holder?, hup, Path.ancestor?, Option.map_some]
  exact congrArg some h.realPath_pathOf

/-- The code source of an entry of a settled archive is the archive. -/
theorem Settled.codeSource?_entry (h : Settled t place) (resource : String) :
    (Location.entry (pathOf place) resource).codeSource? t resource = some (pathOf place) := by
  rw [Location.codeSource?, Location.holder?, Option.map_some]
  exact congrArg some h.realPath_pathOf

end FileTree

end Overlay
