import Mathlib.Data.List.Nodup
import Overlay.Provenance

/-!
# Inherited provenance

The names that enclose a name are found by a search that goes outward: to what stands in front of
the last dollar sign, and from there on in the same way, until nothing is left in front of one. The
search ends for every name and finds the non-empty prefixes that a dollar sign follows, each once
and the longest first. A name is therefore fallback-sourced if it is marked or goes on behind a
marked name with a dollar sign, and so is then whatever goes on behind it.
-/

namespace Overlay

namespace SymbolName

/-- What stands in front of the last dollar sign, unless that is empty. -/
def outwardChars? (cs : List Char) : Option (List Char) :=
  (Text.beforeLast nestingMark cs).filter (· != [])

/-- The next name outward: what stands in front of the last dollar sign, unless that is empty. -/
def outward? (name : String) : Option String := (outwardChars? name.toList).map String.ofList

/-- A search that goes outward from a name comes to an end and has found some names by then, in this
order. -/
inductive Searches : String → List String → Prop where
  /-- There is nowhere to go. -/
  | ended {name : String} (last : outward? name = none) : Searches name []
  /-- The search goes on from the next name. -/
  | further {name outer : String} {names : List String} (next : outward? name = some outer)
    (rest : Searches outer names) : Searches name (outer :: names)

/-- A search finds one list of names. -/
theorem Searches.unique {name : String} {names names' : List String} (h : Searches name names)
    (h' : Searches name names') : names = names' := by
  induction h generalizing names' with
  | ended last =>
    cases h' with
    | ended => rfl
    | further next => exact absurd (last.symm.trans next) nofun
  | further next rest ih =>
    cases h' with
    | ended last => exact absurd (next.symm.trans last) nofun
    | further next' rest' =>
      obtain rfl := Option.some.inj (next.symm.trans next')
      rw [ih rest']

/-- The enclosing names of a name given back to front are the part behind the first dollar sign and
the enclosing names of that part. -/
theorem enclosingReversed_eq (cs : List Char) :
    enclosingReversed cs =
      match cs.dropWhile (· != nestingMark) with
      | [] => []
      | _ :: outer => if outer = [] then [] else outer.reverse :: enclosingReversed outer := by
  induction cs with
  | nil => rfl
  | cons c cs ih =>
    by_cases hc : c = nestingMark
    · subst hc
      by_cases hcs : cs = []
      · simp [enclosingReversed, hcs]
      · simp [enclosingReversed, hcs]
    · simp [enclosingReversed, hc, ih]

/-- The enclosing names of a name are the next name outward and the enclosing names of that one. -/
theorem enclosingChars_eq (cs : List Char) :
    enclosingChars cs =
      match outwardChars? cs with
      | none => []
      | some outer => outer :: enclosingChars outer := by
  rw [enclosingChars, enclosingReversed_eq, outwardChars?, Text.beforeLast]
  cases cs.reverse.dropWhile (· != nestingMark) with
  | nil => rfl
  | cons c outer =>
    by_cases houter : outer = []
    · simp [houter, Option.filter_some]
    · simp [houter, Option.filter_some, enclosingChars]

/-- The next name outward is shorter. -/
theorem length_lt_of_outwardChars? {cs outer : List Char} (h : outwardChars? cs = some outer) :
    outer.length < cs.length := by
  have hfront : Text.beforeLast nestingMark cs = some outer := (Option.filter_eq_some_iff.1 h).1
  have hle := (Text.prefix_of_beforeLast hfront).length_le
  rw [List.length_append, List.length_singleton] at hle
  omega

/-- The search from a name finds the names that enclose it. -/
theorem searches_enclosing (name : String) : Searches name (enclosing name) := by
  suffices h : ∀ cs : List Char,
      Searches (String.ofList cs) ((enclosingChars cs).map String.ofList) by
    simpa [enclosing] using h name.toList
  intro cs
  induction hn : cs.length using Nat.strongRecOn generalizing cs with
  | ind n ih =>
    rw [enclosingChars_eq]
    cases hnext : outwardChars? cs with
    | none =>
      refine .ended ?_
      rw [outward?, String.toList_ofList, hnext]
      rfl
    | some outer =>
      refine .further ?_ (ih outer.length (hn ▸ length_lt_of_outwardChars? hnext) outer rfl)
      rw [outward?, String.toList_ofList, hnext]
      rfl

/-- The names that enclose a name become shorter. -/
theorem pairwise_length_enclosing (name : String) :
    (enclosing name).Pairwise fun inner outer => outer.length < inner.length := by
  have hchars (cs : List Char) :
      (enclosingReversed cs).Pairwise fun inner outer => outer.length < inner.length := by
    induction cs with
    | nil => exact List.Pairwise.nil
    | cons c cs ih =>
      rw [enclosingReversed]
      split
      · refine List.pairwise_cons.2 ⟨fun q hq => ?_, ih⟩
        have hle := (mem_enclosingReversed.1 hq).2.length_le
        simp only [List.length_cons, List.length_reverse] at hle ⊢
        omega
      · exact ih
  rw [enclosing, List.pairwise_map]
  exact (hchars name.toList.reverse).imp fun h => by simpa using h

/-- The names that a name is nested in, in the order in which they are looked at. -/
structure Unnests (name : String) (names : List String) : Prop where
  /-- They are the non-empty prefixes of the name that a dollar sign follows. -/
  mem_iff : ∀ outer, outer ∈ names ↔ outer ≠ "" ∧ outer.toList ++ ['$'] <+: name.toList
  /-- Each is there once. -/
  once : names.Nodup
  /-- Longer names stand in front of shorter ones. -/
  longestFirst : names.Pairwise fun inner outer => outer.length < inner.length

theorem unnests_enclosing (name : String) : Unnests name (enclosing name) where
  mem_iff _ := mem_enclosing_iff
  once := by
    refine (pairwise_length_enclosing name).imp fun hlt => ?_
    rintro rfl
    exact Nat.lt_irrefl _ hlt
  longestFirst := pairwise_length_enclosing name

/-- Dollar signs at either end, two in a row and characters of more than one byte. -/
example : enclosing "$é$$b$" = ["$é$$b", "$é$", "$é"] := by decide

end SymbolName

namespace Provenance

open SymbolName

variable {p q : Provenance} {name : String}

/-- With more marks, no name is less fallback-sourced. -/
theorem isFallbackSourced_mono (h : ∀ n, p.isMarked n = true → q.isMarked n = true)
    (hp : p.isFallbackSourced name = true) : q.isFallbackSourced name = true := by
  rw [isFallbackSourced_iff] at hp ⊢
  obtain ⟨outer, htakes, hmarked⟩ := hp
  exact ⟨outer, htakes, h outer hmarked⟩

/-- What goes on behind a fallback-sourced name with a dollar sign is fallback-sourced. -/
theorem isFallbackSourced_nested (hne : name ≠ "") (hp : p.isFallbackSourced name = true)
    (inner : String) : p.isFallbackSourced (name ++ "$" ++ inner) = true := by
  rw [isFallbackSourced_iff] at hp ⊢
  obtain ⟨outer, htakes, hmarked⟩ := hp
  have hencloses : Encloses name (name ++ "$" ++ inner) := by
    rw [Encloses, String.toList_append, String.toList_append]
    exact List.prefix_append _ _
  exact ⟨outer, TakesAfter.trans (Or.inr ⟨hne, hencloses⟩) htakes, hmarked⟩

/-- Marks are inherited by nested names, and by no others. -/
structure Inherits (p : Provenance) : Prop where
  /-- A name is fallback-sourced if it is marked or goes on behind a non-empty marked name with a
  dollar sign, and only then. -/
  sourced_iff : ∀ name, p.isFallbackSourced name = true ↔
    p.isMarked name = true ∨
      ∃ outer, outer ≠ "" ∧ p.isMarked outer = true ∧ outer.toList ++ ['$'] <+: name.toList
  /-- It stays so with more marks. -/
  mono : ∀ q : Provenance, (∀ n, p.isMarked n = true → q.isMarked n = true) →
    ∀ name, p.isFallbackSourced name = true → q.isFallbackSourced name = true
  /-- What goes on behind it with a dollar sign is so as well. -/
  nested : ∀ name, name ≠ "" → p.isFallbackSourced name = true →
    ∀ inner, p.isFallbackSourced (name ++ "$" ++ inner) = true

/-- Whatever is marked, marks are inherited by nested names and no others, and from every name the
search outward comes to an end with the names that it is nested in, the longest first. -/
theorem inherits_and_unnests (p : Provenance) :
    p.Inherits ∧ ∀ name, Searches name (enclosing name) ∧ Unnests name (enclosing name) ∧
      ∀ names, Searches name names → names = enclosing name := by
  refine ⟨⟨fun name => ?_, fun q h name => isFallbackSourced_mono h,
    fun name => isFallbackSourced_nested⟩, fun name => ?_⟩
  · rw [isFallbackSourced_iff]
    constructor
    · rintro ⟨outer, rfl | ⟨hne, hencloses⟩, hmarked⟩
      · exact Or.inl hmarked
      · exact Or.inr ⟨outer, hne, hmarked, hencloses⟩
    · rintro (hmarked | ⟨outer, hne, hmarked, hencloses⟩)
      · exact ⟨name, Or.inl rfl, hmarked⟩
      · exact ⟨outer, Or.inr ⟨hne, hencloses⟩, hmarked⟩
  · exact ⟨searches_enclosing name, unnests_enclosing name,
      fun names h => h.unique (searches_enclosing name)⟩

end Provenance

end Overlay
