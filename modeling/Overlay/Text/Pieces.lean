/-!
# Splitting at separators

`pieces p xs` cuts a list at every element that satisfies `p` and drops those elements, so that
`n` separators give `n + 1` pieces. `joined` puts pieces together again with one separator.
`beforeLast` is the part of a list in front of the last occurrence of an element.
-/

namespace Overlay.Text

variable {α : Type}

/-- The parts of a list between the elements that satisfy `p`; there is always at least one. -/
def pieces (p : α → Bool) : List α → List (List α)
  | [] => [[]]
  | x :: xs =>
    if p x then [] :: pieces p xs
    else
      match pieces p xs with
      | [] => [[x]]
      | q :: qs => (x :: q) :: qs

theorem pieces_ne_nil (p : α → Bool) (xs : List α) : pieces p xs ≠ [] := by
  cases xs with
  | nil => simp [pieces]
  | cons x xs =>
    rw [pieces]
    split
    · simp
    · split <;> simp

/-- No piece holds a separator. -/
theorem not_of_mem_pieces {p : α → Bool} {xs q : List α} (hq : q ∈ pieces p xs) {x : α}
    (hx : x ∈ q) : p x = false := by
  induction xs generalizing q with
  | nil => simp_all [pieces]
  | cons y ys ih =>
    by_cases hy : p y = true
    · simp only [pieces, hy, if_true, List.mem_cons] at hq
      rcases hq with rfl | hq
      · simp at hx
      · exact ih hq hx
    · simp only [pieces, hy] at hq
      cases hp : pieces p ys with
      | nil => exact absurd hp (pieces_ne_nil p ys)
      | cons r rs =>
        simp only [hp, Bool.false_eq_true, if_false, List.mem_cons] at hq
        rcases hq with rfl | hq
        · rcases List.mem_cons.1 hx with rfl | hx
          · simpa using hy
          · exact ih (by simp [hp]) hx
        · exact ih (by simp [hp, hq]) hx

/-- What a piece holds was in the list. -/
theorem mem_of_mem_pieces {p : α → Bool} {xs q : List α} (hq : q ∈ pieces p xs) {x : α}
    (hx : x ∈ q) : x ∈ xs := by
  induction xs generalizing q with
  | nil =>
    rw [pieces, List.mem_singleton] at hq
    rw [hq] at hx
    cases hx
  | cons y ys ih =>
    rw [pieces] at hq
    split at hq
    · rcases List.mem_cons.1 hq with rfl | hq
      · cases hx
      · exact List.mem_cons_of_mem y (ih hq hx)
    · cases hp : pieces p ys with
      | nil => exact absurd hp (pieces_ne_nil p ys)
      | cons r rs =>
        rw [hp] at ih hq
        rcases List.mem_cons.1 hq with rfl | hq
        · rcases List.mem_cons.1 hx with rfl | hx
          · exact List.mem_cons_self
          · exact List.mem_cons_of_mem y (ih List.mem_cons_self hx)
        · exact List.mem_cons_of_mem y (ih (List.mem_cons_of_mem r hq) hx)

/-- A separator parts the pieces before it from those behind it. -/
theorem pieces_append {p : α → Bool} (xs : List α) {y : α} (hy : p y = true) (ys : List α) :
    pieces p (xs ++ y :: ys) = pieces p xs ++ pieces p ys := by
  induction xs with
  | nil => simp only [List.nil_append, pieces, hy, if_true, List.singleton_append]
  | cons x xs ih =>
    rw [List.cons_append, pieces, pieces, ih]
    by_cases hx : p x = true
    · rw [if_pos hx, if_pos hx, List.cons_append]
    · rw [if_neg hx, if_neg hx]
      cases hq : pieces p xs with
      | nil => exact absurd hq (pieces_ne_nil p xs)
      | cons q qs => rfl

/-- A list without separators is its only piece. -/
theorem pieces_of_forall {p : α → Bool} {xs : List α} (h : ∀ x ∈ xs, p x = false) :
    pieces p xs = [xs] := by
  induction xs with
  | nil => rfl
  | cons x xs ih =>
    have hx : p x = false := h x List.mem_cons_self
    rw [pieces, hx, ih fun y hy => h y (List.mem_cons_of_mem x hy)]
    rfl

/-- What follows without a separator belongs to the last piece. -/
theorem pieces_append_of_forall {p : α → Bool} (xs : List α) {ys : List α}
    (h : ∀ y ∈ ys, p y = false) :
    ∃ front q, pieces p xs = front ++ [q] ∧ pieces p (xs ++ ys) = front ++ [q ++ ys] := by
  induction xs with
  | nil => exact ⟨[], [], rfl, pieces_of_forall h⟩
  | cons x xs ih =>
    obtain ⟨front, q, hxs, happend⟩ := ih
    rw [List.cons_append, pieces, pieces, hxs, happend]
    by_cases hx : p x = true
    · rw [if_pos hx, if_pos hx]
      exact ⟨[] :: front, q, rfl, rfl⟩
    · rw [if_neg hx, if_neg hx]
      cases front with
      | nil => exact ⟨[], x :: q, rfl, rfl⟩
      | cons r front => exact ⟨(x :: r) :: front, q, rfl, rfl⟩

/-- The pieces in a row with `sep` between neighbours. -/
def joined (sep : α) : List (List α) → List α
  | [] => []
  | [q] => q
  | q :: r :: rest => q ++ sep :: joined sep (r :: rest)

/-- Joining is the library's. -/
theorem joined_eq_intercalate (sep : α) (qs : List (List α)) :
    joined sep qs = [sep].intercalate qs := by
  induction qs with
  | nil => rfl
  | cons q rest ih =>
    cases rest with
    | nil => simp [joined]
    | cons r rest =>
      rw [joined, ih, List.intercalate_cons_cons, List.append_assoc, List.singleton_append]

/-- Joining parts of a row gives two texts with a separator between them. -/
theorem joined_append (sep : α) {qs rs : List (List α)} (hq : qs ≠ []) (hr : rs ≠ []) :
    joined sep (qs ++ rs) = joined sep qs ++ sep :: joined sep rs := by
  induction qs with
  | nil => exact absurd rfl hq
  | cons q rest ih =>
    cases rest with
    | nil =>
      obtain ⟨r, rest, rfl⟩ := List.exists_cons_of_ne_nil hr
      rfl
    | cons q' rest =>
      have hrest := ih (by simp)
      rw [List.cons_append, List.cons_append, joined, ← List.cons_append, hrest, joined,
        List.append_assoc, List.cons_append]

/-- Cutting at one element and joining with it again gives the list back. -/
theorem joined_pieces [DecidableEq α] (sep : α) (xs : List α) :
    joined sep (pieces (· == sep) xs) = xs := by
  induction xs with
  | nil => rfl
  | cons x xs ih =>
    have hne := pieces_ne_nil (· == sep) xs
    cases hp : pieces (· == sep) xs with
    | nil => exact absurd hp hne
    | cons q qs =>
      rw [hp] at ih
      by_cases hx : x = sep
      · simp [pieces, hx, hp, joined, ih]
      · cases qs with
        | nil => simpa [pieces, hx, hp, joined] using ih
        | cons r rs => simpa [pieces, hx, hp, joined] using ih

/-- Cutting what was joined gives the pieces back, if none of them holds the separator. -/
theorem pieces_joined [DecidableEq α] {sep : α} {qs : List (List α)} (hne : qs ≠ [])
    (h : ∀ q ∈ qs, sep ∉ q) : pieces (· == sep) (joined sep qs) = qs := by
  have hone : ∀ q ∈ qs, pieces (· == sep) q = [q] := by
    intro q hq
    refine pieces_of_forall fun x hx => ?_
    simp only [beq_eq_false_iff_ne]
    rintro rfl
    exact h q hq hx
  induction qs with
  | nil => exact absurd rfl hne
  | cons q rest ih =>
    cases rest with
    | nil => exact hone q List.mem_cons_self
    | cons r rest =>
      have hcut := pieces_append (p := (· == sep)) q (beq_self_eq_true sep)
      rw [joined, hcut, hone q List.mem_cons_self,
        ih (by simp) (fun q' hq' => h q' (List.mem_cons_of_mem q hq'))
          fun q' hq' => hone q' (List.mem_cons_of_mem q hq')]
      rfl

/-- The part of a list in front of the last occurrence of `sep`. -/
def beforeLast [DecidableEq α] (sep : α) (xs : List α) : Option (List α) :=
  match xs.reverse.dropWhile (· != sep) with
  | [] => none
  | _ :: rest => some rest.reverse

/-- What stands in front of the last separator begins the list. -/
theorem prefix_of_beforeLast [DecidableEq α] {sep : α} {xs front : List α}
    (h : beforeLast sep xs = some front) : front ++ [sep] <+: xs := by
  have hsplit := List.takeWhile_append_dropWhile (p := (· != sep)) (l := xs.reverse)
  have hhead := List.head?_dropWhile_not (· != sep) xs.reverse
  rw [beforeLast] at h
  cases hdrop : xs.reverse.dropWhile (· != sep) with
  | nil =>
    rw [hdrop] at h
    cases h
  | cons y rest =>
    rw [hdrop] at h hsplit hhead
    obtain rfl := Option.some.inj h
    obtain rfl : y = sep := by simpa using hhead
    refine ⟨(xs.reverse.takeWhile (· != y)).reverse, List.reverse_inj.1 ?_⟩
    simpa using hsplit

end Overlay.Text
