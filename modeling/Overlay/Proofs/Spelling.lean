import Overlay.Proofs.CodeSource

/-!
# Spellings of resource names

A resource name spells a place if its parts between slashes are the names that lead there, with
empty parts and dots only between them. The place has one written path, and every other spelling is
a longer one. Walking through the parts of a name from a directory without links below it ends at
the place that the name spells, if it ends anywhere.
-/

namespace Overlay

open FileTree

namespace Path

/-- The path of a place below a directory, as it is written. -/
def written (place : Place) : String := "/".intercalate place

/-- The parts of a resource name between its slashes. -/
def partsOf (resource : String) : List (List Char) := Text.pieces (· == '/') resource.toList

/-- A resource name spells a place: its parts are the names of the place, with empty parts and dots
only between them. -/
structure Spells (resource : String) (place : Place) : Prop where
  /-- The parts that mean something are the names. -/
  names : (partsOf resource).filter (fun part => !isIdle part) = place.map String.toList
  /-- The first part means something. -/
  first : ∀ part ∈ (partsOf resource).head?, isIdle part = false
  /-- The last part means something. -/
  last : ∀ part ∈ (partsOf resource).getLast?, isIdle part = false

theorem isIdle_iff {part : List Char} : isIdle part = true ↔ part = [] ∨ part = ['.'] := by
  rw [isIdle, Bool.or_eq_true, beq_iff_eq, beq_iff_eq]

/-- A part is a name unless it is idle or leads up. -/
theorem component?_cases (part : List Char) :
    (isIdle part = true ∧ component? part = none) ∨
      (part = ['.', '.'] ∧ component? part = some .up) ∨
      (isIdle part = false ∧ part ≠ ['.', '.'] ∧ component? part = some (.name part)) := by
  unfold component?
  cases h : isIdle part with
  | true => exact Or.inl ⟨rfl, rfl⟩
  | false =>
    by_cases hup : part = ['.', '.']
    · exact Or.inr (Or.inl ⟨hup, by rw [if_pos hup]; rfl⟩)
    · exact Or.inr (Or.inr ⟨rfl, hup, by rw [if_neg hup]; rfl⟩)

/-- A text that starts neither with a slash nor with a dot alone has no anchor. -/
theorem split_of_first {cs : List Char}
    (h : ∀ part ∈ (Text.pieces (· == '/') cs).head?, isIdle part = false) :
    split cs = (.none, cs) := by
  unfold split
  split
  · cases h [] (by rw [Text.pieces]; rfl)
  · cases h ['.'] rfl
  · cases h ['.'] (by rw [Text.pieces, Text.pieces]; rfl)
  · rfl

theorem head?_pieces_cons {c : Char} (hc : c ≠ '/') (cs : List Char) :
    ∃ part rest, Text.pieces (· == '/') cs = part :: rest ∧
      Text.pieces (· == '/') (c :: cs) = (c :: part) :: rest := by
  cases h : Text.pieces (· == '/') cs with
  | nil => exact absurd h (Text.pieces_ne_nil _ _)
  | cons part rest =>
    refine ⟨part, rest, rfl, ?_⟩
    rw [Text.pieces, h, if_neg (by simpa using hc)]

/-- The first part of a text without an anchor means something, unless the text is empty. -/
theorem first_of_split {cs : List Char} (hne : cs ≠ []) (h : (split cs).1 = .none) :
    ∀ part ∈ (Text.pieces (· == '/') cs).head?, isIdle part = false := by
  obtain ⟨c, rest, rfl⟩ := List.exists_cons_of_ne_nil hne
  by_cases hc : c = '/'
  · rw [hc] at h
    cases h
  · obtain ⟨part, more, hrest, hall⟩ := head?_pieces_cons hc rest
    rw [hall]
    rintro _ ⟨⟩
    refine eq_false_of_ne_true fun hidle => ?_
    rcases isIdle_iff.1 hidle with hnil | hdot
    · cases hnil
    · obtain ⟨rfl, rfl⟩ := List.cons.inj hdot
      cases rest with
      | nil => cases h
      | cons d rest =>
        by_cases hd : d = '/'
        · rw [hd] at h
          cases h
        · obtain ⟨part', more', -, hrest'⟩ := head?_pieces_cons hd rest
          rw [hrest'] at hrest
          cases hrest

/-- The components of a text are its anchor and what its parts stand for: the part of the anchor
stands for nothing. -/
theorem componentsOf_eq (cs : List Char) :
    componentsOf cs =
      (split cs).1.components ++ (Text.pieces (· == '/') cs).filterMap component? := by
  have hbody : ∀ body : List Char, (segmentsOf body).filterMap component? =
      (Text.pieces (· == '/') body).filterMap component? := by
    intro body
    unfold segmentsOf
    split
    · rename_i hnil
      rw [hnil]
      rfl
    · rfl
  rw [componentsOf, hbody]
  refine congrArg ((split cs).1.components ++ ·) ?_
  unfold split
  split
  · rfl
  · rfl
  · rfl
  · rfl

/-- The components of a path without an anchor are those of its parts. -/
theorem components_of_split {resource : String}
    (h : split resource.toList = (.none, resource.toList)) :
    (Path.mk resource).components = (partsOf resource).filterMap component? := by
  rw [components, componentsOf_eq, h]
  rfl

/-- A resource name stays below a place if its first part is not idle and no part leads up. -/
theorem staysBelow_iff {resource : String} :
    staysBelow resource = true ↔
      (∀ part ∈ (partsOf resource).head?, isIdle part = false) ∧ ['.', '.'] ∉ partsOf resource := by
  have hempty : resource != "" ↔ resource.toList ≠ [] := by
    rw [bne_iff_ne, ne_eq, ne_eq, ← String.toList_inj]
    rfl
  rw [staysBelow, Bool.and_eq_true, hempty, List.all_eq_true]
  constructor
  · rintro ⟨hne, hnames⟩
    have hanchor : (split resource.toList).1 = .none := by
      have hmem : ∀ c ∈ (split resource.toList).1.components, c ∈ (Path.mk resource).components :=
        fun c hc => List.mem_append_left _ hc
      cases ha : (split resource.toList).1 with
      | root =>
        rw [ha] at hmem
        exact absurd (hnames _ (hmem .root List.mem_cons_self)) Bool.false_ne_true
      | here =>
        rw [ha] at hmem
        exact absurd (hnames _ (hmem .here List.mem_cons_self)) Bool.false_ne_true
      | none => rfl
    have hfirst := first_of_split hne hanchor
    refine ⟨hfirst, fun hup => ?_⟩
    rw [components_of_split (split_of_first hfirst)] at hnames
    exact Bool.false_ne_true (hnames .up (List.mem_filterMap.2 ⟨_, hup, rfl⟩))
  · rintro ⟨hfirst, hup⟩
    have hne : resource.toList ≠ [] := by
      intro he
      rw [partsOf, he] at hfirst
      cases hfirst [] rfl
    refine ⟨hne, fun c hc => ?_⟩
    rw [components_of_split (split_of_first hfirst)] at hc
    obtain ⟨part, hpart, hc⟩ := List.mem_filterMap.1 hc
    rcases component?_cases part with ⟨-, hn⟩ | ⟨rfl, -⟩ | ⟨-, -, hn⟩
    · rw [hn] at hc
      cases hc
    · exact absurd hpart hup
    · rw [hn] at hc
      obtain rfl := Option.some.inj hc
      rfl

end Path

/-- What stands between separators is in one of the joined lists. -/
theorem Text.mem_joined {α : Type} {sep x : α} {qs : List (List α)} (h : x ∈ joined sep qs) :
    x = sep ∨ ∃ q ∈ qs, x ∈ q := by
  induction qs with
  | nil => cases h
  | cons q rest ih =>
    cases rest with
    | nil => exact Or.inr ⟨q, List.mem_cons_self, h⟩
    | cons r rest =>
      rw [joined, List.mem_append, List.mem_cons] at h
      rcases h with hq | rfl | hrest
      · exact Or.inr ⟨q, List.mem_cons_self, hq⟩
      · exact Or.inl rfl
      · rcases ih hrest with hsep | ⟨q', hq', hx⟩
        · exact Or.inl hsep
        · exact Or.inr ⟨q', List.mem_cons_of_mem q hq', hx⟩

theorem Text.mem_joined_of_mem {α : Type} (sep : α) {x : α} {qs : List (List α)} {q : List α}
    (hq : q ∈ qs) (hx : x ∈ q) : x ∈ joined sep qs := by
  induction qs with
  | nil => cases hq
  | cons r rest ih =>
    cases rest with
    | nil =>
      obtain rfl := List.mem_singleton.1 hq
      exact hx
    | cons r' rest =>
      rw [joined, List.mem_append, List.mem_cons]
      rcases List.mem_cons.1 hq with rfl | hq
      · exact Or.inl hx
      · exact Or.inr (Or.inr (ih hq))

namespace FileTree

variable {t : FileTree} {place base : Place} {files : List (Place × ByteArray)} {resource : String}

/-- The steps of a walk that lead somewhere else. -/
def movesOf (steps : List String) : List String := steps.filter fun step => !Path.isIdle step.toList

theorem isIdle_toList_iff {step : String} :
    Path.isIdle step.toList = true ↔ step = "" ∨ step = "." := by
  rw [Path.isIdle_iff, ← String.toList_inj, ← String.toList_inj]
  rfl

/-- Where no links are and no step leads up, a walk ends at the names on its way. -/
theorem walkWith_unlinked {follow : Place → List String → Except IoError Place}
    (hlink : ∀ below target, t.nodeAt? (base ++ below) ≠ some (.link target)) {steps : List String}
    (hup : ".." ∉ steps) (below : Place) {r : Place}
    (h : t.walkWith follow (base ++ below) steps = .ok r) :
    r = base ++ (below ++ movesOf steps) := by
  induction steps generalizing below with
  | nil =>
    rw [movesOf, List.filter_nil, List.append_nil]
    exact (Except.ok.inj h).symm
  | cons step rest ih =>
    have hrest : ".." ∉ rest := fun hr => hup (List.mem_cons_of_mem step hr)
    have hstep : step ≠ ".." := fun he => hup (he ▸ List.mem_cons_self)
    rw [FileTree.walkWith] at h
    split at h
    · cases h
    · split at h
      · rename_i hidle
        have hskip : movesOf (step :: rest) = movesOf rest := by
          rw [movesOf, List.filter_cons, isIdle_toList_iff.2 hidle]
          rfl
        rw [hskip]
        exact ih hrest below h
      · rename_i hmove
        have hkeep : movesOf (step :: rest) = step :: movesOf rest := by
          rw [movesOf, List.filter_cons, eq_false_of_ne_true (mt isIdle_toList_iff.1 hmove)]
          rfl
        split at h
        · cases h
        · split at h
          · cases h
          · rename_i target hn
            rw [List.append_assoc] at hn
            exact absurd hn (hlink _ target)
          · rw [List.append_assoc] at h
            rw [hkeep, ih hrest _ h, List.append_assoc, List.singleton_append]

/-- What leads to a settled place is settled. -/
theorem Settled.of_append {names : Place} (h : Settled t (place ++ names)) : Settled t place := by
  induction names using List.reverseRecOn with
  | nil => rwa [List.append_nil] at h
  | append_singleton names name ih =>
    rw [← List.append_assoc] at h
    have := h.dropLast
    rw [List.dropLast_concat] at this
    exact ih this

/-- The first step from a place to a settled one: the place is a directory, and the step leads to a
node that is no link. -/
theorem Settled.enters {name : String} {names : Place}
    (h : Settled t (place ++ name :: names)) :
    t.directoryAt place = true ∧ IsPlain name ∧
      ∃ n, t.nodeAt? (place ++ [name]) = some n ∧ ∀ target, n ≠ .link target := by
  have hnext : Settled t (place ++ [name]) := by
    rw [← List.singleton_append, ← List.append_assoc] at h
    exact h.of_append
  generalize hq : place ++ [name] = q at hnext
  cases hnext with
  | root => simp at hq
  | @enter place' name' n above directory plain node unlinked =>
    obtain ⟨rfl, hname⟩ := List.append_inj' hq rfl
    obtain rfl := (List.cons.inj hname).1
    exact ⟨directory, plain, n, node, unlinked⟩

theorem movesOf_cons_of_idle {step : String} (h : Path.isIdle step.toList = true)
    (rest : List String) : movesOf (step :: rest) = movesOf rest := by
  rw [movesOf, List.filter_cons, h]
  rfl

theorem movesOf_cons_of_not_idle {step : String} (h : Path.isIdle step.toList = false)
    (rest : List String) : movesOf (step :: rest) = step :: movesOf rest := by
  rw [movesOf, List.filter_cons, h]
  rfl

/-- A walk to a settled place may take idle steps on its way, but not at its end. -/
theorem Settled.walkWith_spelled {follow : Place → List String → Except IoError Place}
    {steps : List String} (h : Settled t (place ++ movesOf steps))
    (hlast : ∀ step ∈ steps.getLast?, Path.isIdle step.toList = false) :
    t.walkWith follow place steps = .ok (place ++ movesOf steps) := by
  induction steps generalizing place with
  | nil =>
    rw [movesOf, List.filter_nil, List.append_nil]
    rfl
  | cons step rest ih =>
    cases hidle : Path.isIdle step.toList with
    | true =>
      have hne : rest ≠ [] := by
        rintro rfl
        rw [hlast step rfl] at hidle
        cases hidle
      have hrest : ∀ s ∈ rest.getLast?, Path.isIdle s.toList = false := by
        obtain ⟨next, rest, rfl⟩ := List.exists_cons_of_ne_nil hne
        rwa [List.getLast?_cons_cons] at hlast
      rw [movesOf_cons_of_idle hidle] at h ⊢
      obtain ⟨name, names, hmoves⟩ : ∃ name names, movesOf rest = name :: names := by
        have hlast := hrest (rest.getLast hne) (List.getLast?_eq_some_getLast hne)
        have hmem : rest.getLast hne ∈ movesOf rest :=
          List.mem_filter.2 ⟨List.getLast_mem hne, by rw [hlast]; rfl⟩
        exact List.exists_cons_of_ne_nil (List.ne_nil_of_mem hmem)
      have hd : t.directoryAt place = true := (hmoves ▸ h).enters.1
      rw [FileTree.walkWith, hd, if_neg (by decide), if_pos (isIdle_toList_iff.1 hidle)]
      exact ih h hrest
    | false =>
      have hrest : ∀ s ∈ rest.getLast?, Path.isIdle s.toList = false := by
        cases rest with
        | nil => simp
        | cons next rest => rwa [List.getLast?_cons_cons] at hlast
      have hsplit : place ++ movesOf (step :: rest) = place ++ [step] ++ movesOf rest := by
        rw [movesOf_cons_of_not_idle hidle, List.append_assoc, List.singleton_append]
      rw [hsplit] at h ⊢
      rw [List.append_assoc, List.singleton_append] at h
      obtain ⟨hd, hplain, n, hn, hlink⟩ := h.enters
      rw [FileTree.walkWith, hd, if_neg (by decide),
        if_neg (fun he => by rw [isIdle_toList_iff.2 he] at hidle; cases hidle),
        if_neg hplain.ne_up, if_neg (Nat.not_lt.2 hplain.short), hn]
      rw [← List.singleton_append, ← List.append_assoc] at h
      cases n with
      | link target => exact absurd rfl (hlink target)
      | _ => exact ih h hrest

/-- However many links a walk may follow, it goes step by step. -/
theorem exists_walkWith (t : FileTree) (links : Nat) : ∃ follow, t.walk links = t.walkWith follow := by
  cases links <;> exact ⟨_, rfl⟩

/-- The path of a resource of a settled directory starts at the root. -/
theorem Settled.startOf_join (h : Settled t place) (hb : Path.staysBelow resource = true)
    (base : Place) : FileTree.startOf ((pathOf place).join resource) base = [] := by
  rw [h.join_pathOf (Path.head?_ne_of_staysBelow hb), FileTree.startOf, Path.isAbsolute,
    Path.toList_absolute]
  rfl

/-- The path of a resource of a settled directory goes through the names of the directory and the
parts of the resource's name. -/
theorem Settled.steps_join (h : Settled t place) (hb : Path.staysBelow resource = true) :
    steps ((pathOf place).join resource) =
      place ++ (Path.partsOf resource).map String.ofList := by
  have hid : (String.ofList ∘ String.toList) = id := funext fun _ => String.ofList_toList
  rw [h.join_pathOf (Path.head?_ne_of_staysBelow hb),
    Path.steps_absolute (by simp [Text.pieces_ne_nil]) (h.slashless_segments _), List.map_append,
    List.map_map, hid, List.map_id]
  rfl

/-- The steps of a resource name. -/
theorem movesOf_partsOf (resource : String) :
    (movesOf ((Path.partsOf resource).map String.ofList)).map String.toList =
      (Path.partsOf resource).filter fun part => !Path.isIdle part := by
  rw [movesOf, List.filter_map, List.map_map]
  have hid : (String.toList ∘ String.ofList) = id := funext fun _ => String.toList_ofList
  have hidle : ((fun step : String => !Path.isIdle step.toList) ∘ String.ofList) =
      fun part => !Path.isIdle part := by
    funext part
    rw [Function.comp_apply, String.toList_ofList]
  rw [hid, hidle, List.map_id]

/-- The names that are spelled are those that the steps lead through. -/
theorem movesOf_of_spells {below : Place} (h : Path.Spells resource below) :
    movesOf ((Path.partsOf resource).map String.ofList) = below := by
  have he := (movesOf_partsOf resource).trans h.names
  exact (List.map_inj_right fun _ _ => String.toList_inj.1).1 he

end FileTree

namespace Path

/-- The parts of the written path of a place below a directory are its names. -/
theorem partsOf_written {place : Place} (hne : place ≠ []) (h : ∀ name ∈ place, IsPlain name) :
    partsOf (written place) = place.map String.toList := by
  have htext : '/' :: (written place).toList = '/' :: Text.joined '/' (place.map String.toList) := by
    rw [← toList_pathOf, pathOf, String.toList_append]
    rfl
  rw [partsOf, (List.cons.inj htext).2]
  exact Text.pieces_joined (by simpa using hne) (slashless_of_isPlain h)

/-- The written path of a place below a directory spells the place. -/
theorem spells_written {place : Place} (hne : place ≠ []) (h : ∀ name ∈ place, IsPlain name) :
    Spells (written place) place := by
  have hparts := partsOf_written hne h
  have hidle := not_idle_of_isPlain h
  refine ⟨?_, ?_, ?_⟩ <;> rw [hparts]
  · exact List.filter_eq_self.2 fun part hpart => by rw [hidle part hpart]; rfl
  · exact fun part hpart => hidle part (List.mem_of_mem_head? hpart)
  · exact fun part hpart => hidle part (List.mem_of_getLast? hpart)

/-- A name spells at most one place. -/
theorem Spells.eq {resource : String} {place place' : Place} (h : Spells resource place)
    (h' : Spells resource place') : place = place' :=
  (movesOf_of_spells h).symm.trans (movesOf_of_spells h')

end Path

end Overlay
