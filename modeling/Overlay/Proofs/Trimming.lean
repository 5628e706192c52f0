import Mathlib.Data.List.DropRight
import Overlay.Text.Blank

/-!
# Trimming

Trimming takes the blanks at both ends off a text, however many there are, and no other characters.
A text of blanks comes out empty, and what comes out is trimmed already.
-/

namespace Overlay.Text

variable {c : Char} {cs before after : List Char}

/-- Dropping from the end is the library's. -/
theorem dropEndWhile_eq_rdropWhile (p : Char → Bool) (cs : List Char) :
    dropEndWhile p cs = cs.rdropWhile p := rfl

/-- A trimmed text begins the text without the blanks that it starts with. -/
theorem trim_prefix_trimStart (cs : List Char) : trim cs <+: trimStart cs :=
  List.rdropWhile_prefix isBlank (trimStart cs)

/-- Trimming adds no character. -/
theorem mem_of_mem_trim (h : c ∈ trim cs) : c ∈ cs :=
  List.dropWhile_subset _ ((trim_prefix_trimStart cs).subset h)

/-- A text that trimming leaves alone does not start with a blank. -/
theorem isBlank_of_trim_cons (h : trim (c :: cs) = c :: cs) : isBlank c = false := by
  apply eq_false_of_ne_true
  intro hc
  have hstart : (trimStart (c :: cs)).length ≤ cs.length := by
    rw [trimStart, List.dropWhile_cons_of_pos hc]
    exact List.length_dropWhile_le isBlank cs
  have hend : (trim (c :: cs)).length ≤ (trimStart (c :: cs)).length :=
    (trim_prefix_trimStart (c :: cs)).length_le
  have hlength := congrArg List.length h
  rw [List.length_cons] at hlength
  omega

/-- A text that does not start with a blank has nothing to lose at its start. -/
theorem trimStart_cons_of_not_blank (h : isBlank c = false) (cs : List Char) :
    trimStart (c :: cs) = c :: cs :=
  List.dropWhile_cons_of_neg (by simp [h])

/-- A text without blanks is trimmed already. -/
theorem trim_eq_self (h : ∀ c ∈ cs, isBlank c = false) : trim cs = cs := by
  cases cs with
  | nil => rfl
  | cons c cs =>
    rw [trim, trimStart_cons_of_not_blank (h c List.mem_cons_self), trimEnd,
      dropEndWhile_eq_rdropWhile, List.rdropWhile_eq_self_iff]
    intro hne hlast
    rw [h _ (List.getLast_mem hne)] at hlast
    cases hlast

/-- A text of blanks comes out empty. -/
theorem trim_of_blank (h : ∀ c ∈ cs, isBlank c = true) : trim cs = [] := by
  rw [trim, trimStart, List.dropWhile_eq_nil_iff.2 h]
  rfl

/-- A trimmed text is trimmed already. -/
theorem trim_trim (cs : List Char) : trim (trim cs) = trim cs := by
  have hstart : trimStart (trim cs) = trim cs := by
    obtain ⟨rest, hrest⟩ := trim_prefix_trimStart cs
    cases htrim : trim cs with
    | nil => rfl
    | cons c front =>
      have hhead := List.head?_dropWhile_not isBlank cs
      rw [htrim] at hrest
      rw [← trimStart, ← hrest] at hhead
      exact trimStart_cons_of_not_blank (by simpa using hhead) front
  rw [trim, hstart]
  exact List.rdropWhile_idempotent isBlank (trimStart cs)

/-- Blanks around a trimmed text are taken off. -/
theorem trim_padded (htrim : trim cs = cs) (hbefore : ∀ c ∈ before, isBlank c = true)
    (hafter : ∀ c ∈ after, isBlank c = true) : trim (before ++ cs ++ after) = cs := by
  cases cs with
  | nil =>
    rw [List.append_nil]
    exact trim_of_blank (List.forall_mem_append.2 ⟨hbefore, hafter⟩)
  | cons c cs =>
    have hc := isBlank_of_trim_cons htrim
    have hstart : trimStart (before ++ (c :: cs ++ after)) = c :: cs ++ after := by
      rw [trimStart, List.dropWhile_append_of_pos hbefore]
      exact trimStart_cons_of_not_blank hc (cs ++ after)
    have hend : trimEnd (c :: cs ++ after) = trimEnd (c :: cs) := by
      rw [trimEnd, trimEnd, dropEndWhile, dropEndWhile, List.reverse_append,
        List.dropWhile_append_of_pos fun c hc => hafter c (List.mem_reverse.1 hc)]
    have hkept : trimEnd (c :: cs) = c :: cs := by
      rwa [trim, trimStart_cons_of_not_blank hc] at htrim
    rw [List.append_assoc, trim, hstart, hend, hkept]

end Overlay.Text
