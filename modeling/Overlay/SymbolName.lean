import Overlay.Text.Pieces

/-!
# Symbol names

A symbol name is a dotted path such as `a.b.C$D`: dots separate namespaces, and a dollar sign
separates a nested symbol from the one that encloses it. A symbol is stored as a resource, whose
name has slashes for the dots and a suffix.
-/

namespace Overlay.SymbolName

/-- Separates the namespaces of a symbol name. -/
def namespaceMark : Char := '.'

/-- Separates a nested symbol from its enclosing symbol. -/
def nestingMark : Char := '$'

/-- A text with every `a` replaced by `b`. -/
def swap (a b : Char) (s : String) : String :=
  String.ofList (s.toList.map fun c => if c = a then b else c)

theorem not_mem_swap {a b : Char} (h : a ≠ b) (s : String) : a ∉ (swap a b s).toList := by
  rw [swap, String.toList_ofList, List.mem_map]
  rintro ⟨c, -, hc⟩
  by_cases hca : c = a
  · rw [if_pos hca] at hc
    exact h hc.symm
  · rw [if_neg hca] at hc
    exact hca hc

/-- A text without `a` stays as it is. -/
theorem swap_of_not_mem {a b : Char} {s : String} (h : a ∉ s.toList) : swap a b s = s := by
  unfold swap
  rw [← String.toList_inj, String.toList_ofList, List.map_congr_left, List.map_id]
  intro c hc
  have hne : c ≠ a := by
    rintro rfl
    exact h hc
  rw [if_neg hne, id]

/-- The resource that stores a symbol: slashes for dots, then the suffix. -/
def resource (name suffix : String) : String := swap namespaceMark '/' name ++ suffix

/-- The dotted form of a name that may be given with slashes. -/
def dotted (name : String) : String := swap '/' namespaceMark name

/-- A dotted name has no slash. -/
theorem slash_not_mem_dotted (name : String) : '/' ∉ (dotted name).toList :=
  not_mem_swap (by decide) name

/-- The part in front of the last dot, unless it is empty. -/
def namespaceChars (cs : List Char) : Option (List Char) :=
  (Text.beforeLast namespaceMark cs).filter (· != [])

/-- The namespace of a symbol: the part in front of its last dot, unless that is empty. -/
def namespace? (name : String) : Option String :=
  (namespaceChars name.toList).map String.ofList

/-- The names that enclose a name given back to front, innermost first: each is what follows a
dollar sign. An empty name encloses nothing. -/
def enclosingReversed : List Char → List (List Char)
  | [] => []
  | c :: outer =>
    if c = nestingMark && outer != [] then outer.reverse :: enclosingReversed outer
    else enclosingReversed outer

/-- The names that enclose a nested name, innermost first. -/
def enclosingChars (cs : List Char) : List (List Char) := enclosingReversed cs.reverse

/-- The names that enclose a nested name, innermost first. -/
def enclosing (name : String) : List String := (enclosingChars name.toList).map String.ofList

/-- A name encloses another if that one goes on behind it with a dollar sign. -/
def Encloses (outer name : String) : Prop := outer.toList ++ [nestingMark] <+: name.toList

instance (outer name : String) : Decidable (Encloses outer name) :=
  inferInstanceAs (Decidable (_ <+: _))

theorem Encloses.trans {outer name inner : String} (h : Encloses outer name)
    (h' : Encloses name inner) : Encloses outer inner := by
  have hname : name.toList <+: inner.toList := (List.prefix_append _ _).trans h'
  exact List.IsPrefix.trans h hname

/-- A name takes after itself and after every name that encloses it, save the empty one. -/
def TakesAfter (name outer : String) : Prop := outer = name ∨ outer ≠ "" ∧ Encloses outer name

theorem TakesAfter.trans {inner name outer : String} (h : TakesAfter inner name)
    (h' : TakesAfter name outer) : TakesAfter inner outer := by
  rcases h' with rfl | ⟨hne, hencloses⟩
  · exact h
  · rcases h with rfl | ⟨-, hinner⟩
    · exact Or.inr ⟨hne, hencloses⟩
    · exact Or.inr ⟨hne, hencloses.trans hinner⟩

/-- Back to front, an enclosing name follows a dollar sign. -/
theorem mem_enclosingReversed {q cs : List Char} :
    q ∈ enclosingReversed cs ↔ q ≠ [] ∧ nestingMark :: q.reverse <:+ cs := by
  induction cs with
  | nil => simp [enclosingReversed]
  | cons c outer ih =>
    have hhead : nestingMark :: q.reverse = c :: outer ↔ c = nestingMark ∧ q = outer.reverse := by
      rw [List.cons.injEq, List.reverse_eq_iff, eq_comm]
    rw [enclosingReversed, List.suffix_cons_iff, hhead]
    split
    · rename_i h
      rw [Bool.and_eq_true, decide_eq_true_iff, bne_iff_ne] at h
      rw [List.mem_cons, ih]
      constructor
      · rintro (rfl | ⟨hq, hs⟩)
        · exact ⟨by simpa using h.2, Or.inl ⟨h.1, rfl⟩⟩
        · exact ⟨hq, Or.inr hs⟩
      · rintro ⟨hq, ⟨-, hs⟩ | hs⟩
        · exact Or.inl hs
        · exact Or.inr ⟨hq, hs⟩
    · rename_i h
      rw [ih]
      constructor
      · rintro ⟨hq, hs⟩
        exact ⟨hq, Or.inr hs⟩
      · rintro ⟨hq, ⟨rfl, rfl⟩ | hs⟩
        · exact absurd hq (by simpa using h)
        · exact ⟨hq, hs⟩

/-- The listed names are those that enclose a name and are not empty. -/
theorem mem_enclosing_iff {outer name : String} :
    outer ∈ enclosing name ↔ outer ≠ "" ∧ Encloses outer name := by
  have hmem : outer ∈ enclosing name ↔ outer.toList ∈ enclosingChars name.toList := by
    rw [enclosing, List.mem_map]
    constructor
    · rintro ⟨q, hq, rfl⟩
      rw [String.toList_ofList]
      exact hq
    · intro h
      exact ⟨outer.toList, h, String.ofList_toList⟩
  have hempty : outer.toList = [] ↔ outer = "" := String.toList_eq_nil_iff
  rw [hmem, enclosingChars, mem_enclosingReversed, Ne, hempty, Encloses, ← List.reverse_suffix,
    List.reverse_append, List.reverse_singleton, List.singleton_append]

end Overlay.SymbolName
