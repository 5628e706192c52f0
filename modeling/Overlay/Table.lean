/-!
# Tables

A table holds at most one value per key and lists its keys in the order in which they were first
given. Writing to a present key replaces the value in place; `insertIfAbsent` leaves a present key
alone.
-/

namespace Overlay

/-- Keys with one value each, in order of first insertion. -/
structure Table (κ α : Type) where
  /-- The pairs, oldest key first. -/
  entries : List (κ × α)
  deriving Repr, Inhabited, DecidableEq

namespace Table

variable {κ α : Type} [DecidableEq κ]

/-- The table without keys. -/
def empty : Table κ α := ⟨[]⟩

/-- The value of a key in a list of pairs, the first pair deciding. -/
def lookup (k : κ) : List (κ × α) → Option α
  | [] => none
  | e :: es => if e.1 = k then some e.2 else lookup k es

/-- The value stored for a key. -/
def get? (t : Table κ α) (k : κ) : Option α := lookup k t.entries

/-- Whether a key has a value. -/
def contains (t : Table κ α) (k : κ) : Bool := (t.get? k).isSome

/-- Write a pair into a list of pairs: in place of the first pair with that key, else at the end. -/
def put (k : κ) (v : α) : List (κ × α) → List (κ × α)
  | [] => [(k, v)]
  | e :: es => if e.1 = k then (k, v) :: es else e :: put k v es

/-- Store a value for a key, replacing any value it has. -/
def insert (t : Table κ α) (k : κ) (v : α) : Table κ α := ⟨put k v t.entries⟩

/-- Store a value for a key that has none; a present value stays. -/
def insertIfAbsent (t : Table κ α) (k : κ) (v : α) : Table κ α :=
  if t.contains k then t else t.insert k v

/-- Change the value of a key, if it has one. -/
def modify (t : Table κ α) (k : κ) (f : α → α) : Table κ α :=
  match t.get? k with
  | some v => t.insert k (f v)
  | none => t

/-- The keys, oldest first. -/
def keys (t : Table κ α) : List κ := t.entries.map (·.1)

/-- The number of keys. -/
def size (t : Table κ α) : Nat := t.entries.length

/-- Whether the table has no keys. -/
def isEmpty (t : Table κ α) : Bool := t.entries.isEmpty

/-- The table of a list of pairs; a later pair replaces an earlier one with its key. -/
def ofList (es : List (κ × α)) : Table κ α := es.foldl (fun t e => t.insert e.1 e.2) empty

@[simp] theorem get?_empty (k : κ) : (empty : Table κ α).get? k = none := rfl

theorem lookup_put_self (k : κ) (v : α) (es : List (κ × α)) : lookup k (put k v es) = some v := by
  induction es with
  | nil => simp [put, lookup]
  | cons e es ih => by_cases h : e.1 = k <;> simp [put, lookup, h, ih]

theorem lookup_put_of_ne {k k' : κ} (hk : k' ≠ k) (v : α) (es : List (κ × α)) :
    lookup k' (put k v es) = lookup k' es := by
  induction es with
  | nil => simp [put, lookup, hk.symm]
  | cons e es ih =>
    by_cases h : e.1 = k
    · simp [put, lookup, h, hk.symm]
    · rw [put, if_neg h, lookup, lookup, ih]

@[simp] theorem get?_insert_self (t : Table κ α) (k : κ) (v : α) :
    (t.insert k v).get? k = some v := lookup_put_self k v t.entries

theorem get?_insert_of_ne (t : Table κ α) {k k' : κ} (hk : k' ≠ k) (v : α) :
    (t.insert k v).get? k' = t.get? k' := lookup_put_of_ne hk v t.entries

theorem get?_insert (t : Table κ α) (k k' : κ) (v : α) :
    (t.insert k v).get? k' = if k' = k then some v else t.get? k' := by
  by_cases h : k' = k
  · rw [h, if_pos rfl, get?_insert_self]
  · rw [if_neg h, get?_insert_of_ne t h]

theorem contains_eq_true_iff (t : Table κ α) (k : κ) :
    t.contains k = true ↔ ∃ v, t.get? k = some v := by
  rw [contains, Option.isSome_iff_exists]

/-- Into an absent key `insertIfAbsent` writes like `insert`. -/
theorem insertIfAbsent_of_none {t : Table κ α} {k : κ} (h : t.get? k = none) (v : α) :
    t.insertIfAbsent k v = t.insert k v := by
  simp [insertIfAbsent, contains, h]

/-- Afterwards the key has its old value, or the new one if it had none; other keys keep theirs. -/
theorem get?_insertIfAbsent (t : Table κ α) (k k' : κ) (v : α) :
    (t.insertIfAbsent k v).get? k' = if k' = k then some ((t.get? k).getD v) else t.get? k' := by
  cases h : t.get? k with
  | none => rw [insertIfAbsent_of_none h, get?_insert, Option.getD_none]
  | some w =>
    have hc : t.contains k = true := (contains_eq_true_iff t k).2 ⟨w, h⟩
    rw [insertIfAbsent, if_pos hc, Option.getD_some]
    by_cases hk : k' = k
    · rw [if_pos hk, hk, h]
    · rw [if_neg hk]

theorem lookup_eq_none_iff (k : κ) (es : List (κ × α)) :
    lookup k es = none ↔ k ∉ es.map (·.1) := by
  induction es with
  | nil => simp [lookup]
  | cons e es ih =>
    rw [lookup, List.map_cons, List.mem_cons]
    by_cases h : e.1 = k
    · simp [h]
    · simp only [if_neg h, ih, Ne.symm h, false_or]

/-- An absent key is written at the end. -/
theorem put_of_lookup {k : κ} {es : List (κ × α)} (h : lookup k es = none) (v : α) :
    put k v es = es ++ [(k, v)] := by
  induction es with
  | nil => rfl
  | cons e es ih =>
    by_cases he : e.1 = k
    · simp [lookup, he] at h
    · simp only [lookup, if_neg he] at h
      rw [put, if_neg he, ih h, List.cons_append]

theorem map_put_of_lookup (k : κ) (v : α) {es : List (κ × α)} (h : lookup k es = none) :
    (put k v es).map (·.1) = es.map (·.1) ++ [k] := by
  rw [put_of_lookup h, List.map_append, List.map_singleton]

/-- Of two values written for one key the later one counts. -/
theorem put_put (k : κ) (v w : α) (es : List (κ × α)) : put k w (put k v es) = put k w es := by
  induction es with
  | nil => simp [put]
  | cons e es ih => by_cases h : e.1 = k <;> simp [put, h, ih]

theorem insert_insert (t : Table κ α) (k : κ) (v w : α) :
    (t.insert k v).insert k w = t.insert k w := congrArg Table.mk (put_put k v w t.entries)

/-- What is made of a list is looked up by its first element with the key. -/
theorem lookup_map {β : Type} (key : β → κ) (value : β → α) (k : κ) (xs : List β) :
    lookup k (xs.map fun x => (key x, value x)) = (xs.find? (key · == k)).map value := by
  induction xs with
  | nil => rfl
  | cons x xs ih => by_cases h : key x = k <;> simp [lookup, h, ih]

/-- Distinct keys stay distinct. -/
theorem nodup_keys_insertIfAbsent {t : Table κ α} (h : t.keys.Nodup) (k : κ) (v : α) :
    (t.insertIfAbsent k v).keys.Nodup := by
  cases hk : t.get? k with
  | some w =>
    rw [insertIfAbsent, if_pos ((contains_eq_true_iff t k).2 ⟨w, hk⟩)]
    exact h
  | none =>
    rw [insertIfAbsent_of_none hk, keys, insert, map_put_of_lookup k v hk, List.nodup_append]
    refine ⟨h, by simp, ?_⟩
    intro k₁ hk₁ k₂ hk₂ he
    rw [List.mem_singleton] at hk₂
    exact (lookup_eq_none_iff k t.entries).1 hk (hk₂ ▸ he ▸ hk₁)

end Table

end Overlay
