/-!
# Numbered entries

What takes part in an interleaved system, or happens in a run, goes by its number in a list. An
entry may be replaced, and new ones are added behind the others, so every entry keeps its number.
-/

namespace Overlay

variable {α : Type} {xs : List α} {x y : α} {i j : Nat}

/-- Additions leave an entry its number. -/
theorem getElem?_append_of_some (h : xs[i]? = some x) (ys : List α) :
    (xs ++ ys)[i]? = some x :=
  (List.getElem?_append_left (List.getElem?_eq_some_iff.1 h).1).trans h

/-- After an addition an entry is the new one, which comes last, or stands where it stood. -/
theorem of_getElem?_concat (h : (xs ++ [y])[i]? = some x) :
    xs[i]? = some x ∨ i = xs.length ∧ x = y := by
  by_cases hi : i < xs.length
  · rw [List.getElem?_append_left hi] at h
    exact Or.inl h
  · have hlast : i = xs.length := by
      have hlt := (List.getElem?_eq_some_iff.1 h).1
      rw [List.length_append, List.length_singleton] at hlt
      omega
    rw [hlast, List.getElem?_concat_length] at h
    exact Or.inr ⟨hlast, (Option.some.inj h).symm⟩

/-- After a replacement an entry is the new one or stands where it stood. -/
theorem of_getElem?_set (h : (xs.set i x)[j]? = some y) :
    j = i ∧ y = x ∨ j ≠ i ∧ xs[j]? = some y := by
  rw [List.getElem?_set] at h
  by_cases hij : i = j
  · rw [if_pos hij] at h
    split at h
    · exact Or.inl ⟨hij.symm, (Option.some.inj h).symm⟩
    · cases h
  · rw [if_neg hij] at h
    exact Or.inr ⟨fun hji => hij hji.symm, h⟩

end Overlay
