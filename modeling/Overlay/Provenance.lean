import Overlay.SymbolName

/-!
# Provenance

The names whose symbols came from the fallback loader. A nested name takes after the names that
enclose it.
-/

namespace Overlay

/-- The marked names, latest first, each once. -/
structure Provenance where
  /-- The names. -/
  marked : List String
  deriving DecidableEq

namespace Provenance

/-- No name is marked. -/
def empty : Provenance := ⟨[]⟩

/-- Whether a name itself is marked. -/
def isMarked (p : Provenance) (name : String) : Bool := p.marked.contains name

/-- Mark a name. -/
def mark (p : Provenance) (name : String) : Provenance :=
  if p.isMarked name then p else ⟨name :: p.marked⟩

@[simp] theorem isMarked_empty (name : String) : empty.isMarked name = false := rfl

/-- Marking marks the name and no other. -/
theorem isMarked_mark (p : Provenance) (name other : String) :
    (p.mark name).isMarked other = true ↔ other = name ∨ p.isMarked other = true := by
  unfold mark
  split
  · rename_i h
    constructor
    · exact Or.inr
    · rintro (rfl | h')
      · exact h
      · exact h'
  · simp [isMarked, List.mem_cons]

/-- Whether a name or a name that encloses it is marked. -/
def isFallbackSourced (p : Provenance) (name : String) : Bool :=
  p.isMarked name || (SymbolName.enclosing name).any p.isMarked

/-- A name is fallback-sourced if it takes after a marked name. -/
theorem isFallbackSourced_iff (p : Provenance) (name : String) :
    p.isFallbackSourced name = true ↔
      ∃ outer, SymbolName.TakesAfter name outer ∧ p.isMarked outer = true := by
  rw [isFallbackSourced, Bool.or_eq_true, List.any_eq_true]
  constructor
  · rintro (h | ⟨outer, ho, h⟩)
    · exact ⟨name, Or.inl rfl, h⟩
    · exact ⟨outer, Or.inr (SymbolName.mem_enclosing_iff.1 ho), h⟩
  · rintro ⟨outer, rfl | ho, h⟩
    · exact Or.inl h
    · exact Or.inr ⟨outer, SymbolName.mem_enclosing_iff.2 ho, h⟩

/-- The number of marked names. -/
def size (p : Provenance) : Nat := p.marked.length

end Provenance

end Overlay
