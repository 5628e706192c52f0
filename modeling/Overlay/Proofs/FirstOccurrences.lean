import Mathlib.Data.List.Induction
import Mathlib.Data.List.Nodup

/-!
# First occurrences

Of the elements of a list with one key the first one is kept. The keys of what is kept are the keys
of the list in the order in which they first occur, each once, and what is kept for a key is what a
search for the key finds.
-/

namespace Overlay

variable {α κ : Type} [DecidableEq κ]

/-- The elements of a list with no element of the same key in front of them. -/
def firsts (key : α → κ) (xs : List α) : List α := xs.eraseDupsBy fun x y => key x == key y

section

variable (key : α → κ) (xs : List α)

@[simp] theorem firsts_nil : firsts key [] = [] := rfl

/-- Whether the last element of a list is kept depends on what is kept of the rest. -/
theorem eraseDupsBy_loop_concat (r : α → α → Bool) (xs kept : List α) (x : α) :
    List.eraseDupsBy.loop r (xs ++ [x]) kept =
      if (List.eraseDupsBy.loop r xs kept).any (r x) then List.eraseDupsBy.loop r xs kept
      else List.eraseDupsBy.loop r xs kept ++ [x] := by
  induction xs generalizing kept with
  | nil =>
    simp only [List.nil_append, List.eraseDupsBy.loop, List.any_reverse]
    cases kept.any (r x) <;> simp
  | cons y xs ih =>
    rw [List.cons_append, List.eraseDupsBy.loop, List.eraseDupsBy.loop]
    split
    · exact ih kept
    · exact ih (y :: kept)

/-- An element is not kept behind one of the same key. -/
theorem firsts_concat_of_mem {x : α} (h : key x ∈ (firsts key xs).map key) :
    firsts key (xs ++ [x]) = firsts key xs := by
  obtain ⟨y, hy, hkey⟩ := List.mem_map.1 h
  have hany : (List.eraseDupsBy.loop (fun x y => key x == key y) xs []).any
      (fun y => key x == key y) = true := List.any_eq_true.2 ⟨y, hy, beq_iff_eq.2 hkey.symm⟩
  rw [firsts, List.eraseDupsBy, eraseDupsBy_loop_concat, if_pos hany]
  rfl

/-- An element of a new key is kept. -/
theorem firsts_concat_of_notMem {x : α} (h : key x ∉ (firsts key xs).map key) :
    firsts key (xs ++ [x]) = firsts key xs ++ [x] := by
  have hany : ¬(List.eraseDupsBy.loop (fun x y => key x == key y) xs []).any
      (fun y => key x == key y) = true := by
    intro hany
    obtain ⟨y, hy, hkey⟩ := List.any_eq_true.1 hany
    exact h (List.mem_map.2 ⟨y, hy, (beq_iff_eq.1 hkey).symm⟩)
  rw [firsts, List.eraseDupsBy, eraseDupsBy_loop_concat, if_neg hany]
  rfl

/-- No two kept elements have the same key. -/
theorem nodup_map_firsts : ((firsts key xs).map key).Nodup := by
  induction xs using List.reverseRecOn with
  | nil => simp
  | append_singleton xs x ih =>
    by_cases h : key x ∈ (firsts key xs).map key
    · rwa [firsts_concat_of_mem key xs h]
    · rw [firsts_concat_of_notMem key xs h, List.map_append, List.map_singleton]
      refine List.nodup_append.2 ⟨ih, List.nodup_singleton _, ?_⟩
      rintro k hk _ hx rfl
      rw [List.mem_singleton.1 hx] at hk
      exact h hk

theorem eraseDups_concat (ks : List κ) (k : κ) :
    (ks ++ [k]).eraseDups = if k ∈ ks then ks.eraseDups else ks.eraseDups ++ [k] := by
  rw [List.eraseDups_append]
  by_cases h : k ∈ ks <;> simp [List.removeAll, h, List.eraseDups_cons]

/-- The keys are those of the list, in the order of their first occurrence. -/
theorem map_firsts : (firsts key xs).map key = (xs.map key).eraseDups := by
  induction xs using List.reverseRecOn with
  | nil => simp
  | append_singleton xs x ih =>
    have hkept : key x ∈ (firsts key xs).map key ↔ key x ∈ xs.map key := by
      rw [ih, List.mem_eraseDups]
    rw [List.map_append, List.map_singleton, eraseDups_concat]
    by_cases h : key x ∈ xs.map key
    · rw [firsts_concat_of_mem key xs (hkept.2 h), if_pos h, ih]
    · rw [firsts_concat_of_notMem key xs (hkept.not.2 h), if_neg h, List.map_append,
        List.map_singleton, ih]

/-- A kept element is the first one of its key. -/
theorem find?_of_mem_firsts {key : α → κ} {xs : List α} {x : α} (h : x ∈ firsts key xs) :
    xs.find? (key · == key x) = some x := by
  induction xs using List.reverseRecOn with
  | nil => cases h
  | append_singleton xs y ih =>
    rw [List.find?_append]
    by_cases hy : key y ∈ (firsts key xs).map key
    · rw [firsts_concat_of_mem key xs hy] at h
      rw [ih h, Option.some_or]
    · rw [firsts_concat_of_notMem key xs hy] at h
      rcases List.mem_append.1 h with h | h
      · rw [ih h, Option.some_or]
      · obtain rfl := List.mem_singleton.1 h
        have hnone : xs.find? (key · == key x) = none := by
          rw [List.find?_eq_none]
          intro z hz he
          rw [map_firsts, List.mem_eraseDups, List.mem_map] at hy
          exact hy ⟨z, hz, beq_iff_eq.1 he⟩
        rw [hnone]
        simp

end

end Overlay
