import Mathlib.Data.List.Nodup
import Overlay.Registry.Lookup

/-!
# Consistent registries

A registry keeps the order of its origins and the set of their locations apart. Registering keeps
the two in step and never gives two origins one location, so `contains` asks about the origins
themselves, and it never takes an answer back.
-/

namespace Overlay

namespace Origin

variable {t : FileTree} {resource : String} {o : Origin} {s : LookupState}

/-- What reading a resource of an origin can do. -/
inductive Reads (t : FileTree) (resource : String) (o : Origin) (s : LookupState) :
    Except LoadError (Option Resource) × LookupState → Prop
  /-- The resource does not stay below the origin. -/
  | strays (hb : Path.staysBelow resource = false) : Reads t resource o s (.ok none, s)
  /-- The directory does not have the file. -/
  | missing (hb : Path.staysBelow resource = true) (hk : o.kind = .directory)
      (hf : t.isFile (o.location.join resource) = false) : Reads t resource o s (.ok none, s)
  /-- The directory has the file. -/
  | file (hb : Path.staysBelow resource = true) (hk : o.kind = .directory)
      (hf : t.isFile (o.location.join resource) = true) {bytes : ByteArray}
      (read : t.read (o.location.join resource) = .ok bytes) :
      Reads t resource o s (.ok (some ⟨o.locate resource, bytes⟩), s)
  /-- The directory has the file but it cannot be read. -/
  | unreadable (hb : Path.staysBelow resource = true) (hk : o.kind = .directory)
      (hf : t.isFile (o.location.join resource) = true) {cause : IoError}
      (read : t.read (o.location.join resource) = .error cause) :
      Reads t resource o s (.error (.read resource (o.locate resource) cause), s)
  /-- The archive is asked, as it is seen. -/
  | archive (hb : Path.staysBelow resource = true) (hk : o.kind = .archive) :
      Reads t resource o s
        (.ok (((o.view t s).1.bind (·.read? resource)).map (⟨o.locate resource, ·⟩)),
          (o.view t s).2)

/-- Reading does one of these. -/
theorem reads_readResource (t : FileTree) (resource : String) (o : Origin) (s : LookupState) :
    Reads t resource o s (o.readResource t resource s) := by
  unfold readResource
  split
  · rename_i hb
    exact .strays (by simpa using hb)
  · rename_i hb
    have hb' : Path.staysBelow resource = true := by simpa using hb
    cases hk : o.kind with
    | archive => exact .archive hb' hk
    | directory =>
      have hplace : o.locate resource = .file (o.location.join resource) := by rw [locate, hk]
      dsimp only
      split
      · rename_i hf
        exact .missing hb' hk (by simpa using hf)
      · rename_i hf
        have hf' : t.isFile (o.location.join resource) = true := by simpa using hf
        rw [← hplace]
        split
        · exact .file hb' hk hf' ‹_›
        · exact .unreadable hb' hk hf' ‹_›

/-- A resource that cannot be read is reported with the place where its origin keeps it. -/
theorem error_of_readResource {e : LoadError} (h : (o.readResource t resource s).1 = .error e) :
    ∃ cause, e = .read resource (o.locate resource) cause := by
  have hr := reads_readResource t resource o s
  generalize o.readResource t resource s = r at h hr
  cases hr with
  | unreadable hb hk hf read => exact ⟨_, (Except.error.inj h).symm⟩
  | _ => cases h

end Origin

namespace Registry

/-- The members of a registry are the locations of its origins, each of which occurs once. -/
structure Consistent (r : Registry) : Prop where
  /-- The members are the locations, latest first. -/
  members_eq : r.members = (r.order.map (·.location.components)).reverse
  /-- No two origins have the same location. -/
  distinct : (r.order.map (·.location.components)).Nodup

theorem consistent_empty : empty.Consistent := ⟨rfl, List.nodup_nil⟩

/-- The registry with one origin. -/
def only (o : Origin) : Registry := empty.append o

/-- A location is registered if an origin has it. -/
theorem Consistent.contains_iff {r : Registry} (h : r.Consistent) (p : Path) :
    r.contains p = true ↔ ∃ o ∈ r.order, o.location.components = p.components := by
  simp only [contains, List.contains_iff_mem, h.members_eq, List.mem_reverse, List.mem_map]

theorem Consistent.contains_of_mem {r : Registry} (h : r.Consistent) {o : Origin}
    (ho : o ∈ r.order) : r.contains o.location = true := (h.contains_iff _).2 ⟨o, ho, rfl⟩

/-- Registered origins at the same location are the same. -/
theorem Consistent.eq_of_mem {r : Registry} (h : r.Consistent) {o o' : Origin} (ho : o ∈ r.order)
    (ho' : o' ∈ r.order) (hc : o.location.components = o'.location.components) : o = o' :=
  List.inj_on_of_nodup_map h.distinct ho ho' hc

/-- Whether a location is registered depends on its components alone. -/
theorem contains_congr (r : Registry) {p q : Path} (h : p.components = q.components) :
    r.contains p = r.contains q := by
  rw [contains, contains, h]

/-- Appending an origin registers its location and no other one. -/
theorem contains_append_iff {r : Registry} {o : Origin} {p : Path} :
    (r.append o).contains p = true ↔
      p.components = o.location.components ∨ r.contains p = true := by
  simp [contains, append]

/-- An origin is inserted if its location is not registered. -/
theorem insert_fst (o : Origin) (tag : Option OriginTag) (r : Registry) (tags : TagStore) :
    (insert o tag r tags).1 = !r.contains o.location := by
  unfold insert
  cases r.contains o.location with
  | true => rfl
  | false => cases tag <;> rfl

/-- Inserting adds an origin at the end unless its location is registered. -/
theorem insert_registry (o : Origin) (tag : Option OriginTag) (r : Registry) (tags : TagStore) :
    (insert o tag r tags).2.1 = if r.contains o.location = true then r else r.append o := by
  unfold insert
  split
  · rfl
  · split <;> rfl

/-- Inserting tags the location of the origin, if it was not registered and a tag is given. -/
theorem get?_insert_tags (o : Origin) (tag : Option OriginTag) (r : Registry) (tags : TagStore)
    (p : Path) :
    (insert o tag r tags).2.2.get? p =
      if o.location.components = p.components ∧ r.contains o.location = false then
        tag.or (tags.get? p)
      else tags.get? p := by
  unfold insert
  cases hc : r.contains o.location with
  | true => simp
  | false =>
    cases tag with
    | none => simp
    | some tag => simp [TagStore.get?_put, eq_comm]

theorem Consistent.append {r : Registry} (h : r.Consistent) {o : Origin}
    (ho : r.contains o.location = false) : (r.append o).Consistent := by
  have hn : ∀ o' ∈ r.order, o'.location.components ≠ o.location.components := by
    intro o' ho' he
    have hc := (h.contains_iff o.location).2 ⟨o', ho', he⟩
    rw [ho] at hc
    cases hc
  constructor
  · simp only [Registry.append, h.members_eq, List.map_append, List.map_cons, List.map_nil,
      List.reverse_append, List.reverse_cons, List.reverse_nil, List.nil_append,
      List.singleton_append]
  · simp only [Registry.append, List.map_append, List.map_cons, List.map_nil]
    rw [List.nodup_append]
    refine ⟨h.distinct, by simp, ?_⟩
    intro key hkey key' hkey' he
    obtain ⟨o', ho', rfl⟩ := List.mem_map.1 hkey
    rw [List.mem_singleton] at hkey'
    exact hn o' ho' (he.trans hkey')

/-- Inserting keeps a registry consistent. -/
theorem Consistent.insert {r : Registry} (h : r.Consistent) (o : Origin) (tag : Option OriginTag)
    (tags : TagStore) : (Registry.insert o tag r tags).2.1.Consistent := by
  rw [insert_registry]
  split
  · exact h
  · rename_i hc
    exact h.append (eq_false_of_ne_true hc)

/-- A registered location stays registered when an origin is inserted. -/
theorem contains_insert {r : Registry} {p : Path} (h : r.contains p = true) (o : Origin)
    (tag : Option OriginTag) (tags : TagStore) :
    (insert o tag r tags).2.1.contains p = true := by
  rw [insert_registry]
  split
  · exact h
  · rw [contains, List.contains_iff_mem] at h ⊢
    exact List.mem_cons_of_mem _ h

theorem mem_order_insert {o o' : Origin} {tag : Option OriginTag} {r : Registry} {tags : TagStore}
    (h : o' ∈ (insert o tag r tags).2.1.order) : o' ∈ r.order ∨ o' = o := by
  rw [insert_registry] at h
  split at h
  · exact Or.inl h
  · simpa [Registry.append] using h

theorem originAt_eq_ok_iff {t : FileTree} {p : Path} {o : Origin} :
    originAt t p = .ok o ↔ Origin.ofPath t p = .ok o := by
  unfold originAt
  split <;> simp_all

/-- Registering inserts the origin that the path leads to, or changes nothing. -/
theorem register_cases (t : FileTree) (p : Path) (tag : Option OriginTag) (r : Registry)
    (tags : TagStore) :
    (∃ e, originAt t p = .error e ∧ r.register t p tag tags = (.error e, r, tags)) ∨
      ∃ o, originAt t p = .ok o ∧ r.register t p tag tags =
        (.ok (insert o tag r tags).1, (insert o tag r tags).2.1, (insert o tag r tags).2.2) := by
  unfold register
  cases h : originAt t p with
  | error e => exact Or.inl ⟨e, rfl, rfl⟩
  | ok o => exact Or.inr ⟨o, rfl, rfl⟩

/-- Registering keeps a registry consistent. -/
theorem Consistent.register {r : Registry} (h : r.Consistent) (t : FileTree) (p : Path)
    (tag : Option OriginTag) (tags : TagStore) : (r.register t p tag tags).2.1.Consistent := by
  rcases register_cases t p tag r tags with ⟨e, -, he⟩ | ⟨o, -, he⟩
  · rw [he]
    exact h
  · rw [he]
    exact h.insert o tag tags

/-- A registered location stays registered. -/
theorem contains_register {r : Registry} {q : Path} (h : r.contains q = true) (t : FileTree)
    (p : Path) (tag : Option OriginTag) (tags : TagStore) :
    (r.register t p tag tags).2.1.contains q = true := by
  rcases register_cases t p tag r tags with ⟨e, -, he⟩ | ⟨o, -, he⟩
  · rw [he]
    exact h
  · rw [he]
    exact contains_insert h o tag tags

/-- A registered origin stays where it is. -/
theorem mem_order_of_mem {r : Registry} {o : Origin} (h : o ∈ r.order) (t : FileTree) (p : Path)
    (tag : Option OriginTag) (tags : TagStore) : o ∈ (r.register t p tag tags).2.1.order := by
  rcases register_cases t p tag r tags with ⟨e, -, he⟩ | ⟨o', -, he⟩
  · rw [he]
    exact h
  · rw [he]
    dsimp only
    rw [insert_registry]
    split
    · exact h
    · exact List.mem_append_left _ h

/-- What registering adds is the origin that the path leads to. -/
theorem mem_order_register {t : FileTree} {p : Path} {tag : Option OriginTag} {r : Registry}
    {tags : TagStore} {o : Origin} (h : o ∈ (r.register t p tag tags).2.1.order) :
    o ∈ r.order ∨ Origin.ofPath t p = .ok o := by
  rcases register_cases t p tag r tags with ⟨e, -, he⟩ | ⟨o', ho', he⟩
  · rw [he] at h
    exact Or.inl h
  · rw [he] at h
    rcases mem_order_insert h with h | rfl
    · exact Or.inl h
    · exact Or.inr (originAt_eq_ok_iff.1 ho')

/-- A resource that is found comes from one of the origins that were searched. -/
theorem mem_of_resolveIn {t : FileTree} {resource : String} {os : List Origin} {s s' : LookupState}
    {o : Origin} {found : Resource}
    (h : resolveIn t resource os s = (.ok (some (o, found)), s')) : o ∈ os := by
  induction os generalizing s with
  | nil => simp [resolveIn] at h
  | cons o' os ih =>
    rw [resolveIn] at h
    split at h
    · simp at h
    · simp only [Prod.mk.injEq, Except.ok.injEq, Option.some.injEq] at h
      rw [← h.1.1]
      exact List.mem_cons_self
    · exact List.mem_cons_of_mem _ (ih h)

/-- A look-up fails only because one of the origins cannot read its copy. -/
theorem error_of_resolveIn {t : FileTree} {resource : String} {os : List Origin}
    {s : LookupState} {e : LoadError} (h : (resolveIn t resource os s).1 = .error e) :
    ∃ o ∈ os, ∃ cause, e = .read resource (o.locate resource) cause := by
  induction os generalizing s with
  | nil => cases h
  | cons o os ih =>
    rw [resolveIn] at h
    split at h
    · rename_i he
      obtain rfl := Except.error.inj h
      exact ⟨o, List.mem_cons_self, Origin.error_of_readResource (congrArg Prod.fst he)⟩
    · cases h
    · obtain ⟨o', ho', he⟩ := ih h
      exact ⟨o', List.mem_cons_of_mem o ho', he⟩

end Registry

end Overlay
