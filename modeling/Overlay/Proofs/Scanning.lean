import Mathlib.Data.List.Sort
import Mathlib.Data.List.TakeWhile
import Mathlib.Data.String.Basic
import Overlay.Proofs.Describing

/-!
# Scanning and indexing an archive

An archive is read in two ways. A scan takes its file entries from the front, as long as their names
start with a prefix; an index takes all of them, and the last one of a name counts. The two never
disagree: an archive can be indexed exactly if the scan without a prefix comes to its end, every
other scan is the longest run at the front of that one, and the index knows what it lists.
-/

namespace Overlay

section Repetitions

variable {α : Type} [BEq α]

/-- What has been collected of a list without its repetitions stands in front of what is left. -/
theorem eraseReps_loop_eq (a : α) (as collected : List α) :
    List.eraseRepsBy.loop (· == ·) a as collected =
      collected.reverse ++ (a :: as).eraseReps := by
  change _ = _ ++ List.eraseRepsBy.loop (· == ·) a as []
  induction as generalizing a collected with
  | nil => simp [List.eraseRepsBy.loop]
  | cons b as ih =>
    simp only [List.eraseRepsBy.loop]
    cases a == b with
    | true => exact ih a collected
    | false => simp [ih b (a :: collected), ih b [a]]

/-- An element is left out if the next one is equal. -/
theorem eraseReps_cons_cons (a b : α) (as : List α) :
    (a :: b :: as).eraseReps =
      if a == b then (a :: as).eraseReps else a :: (b :: as).eraseReps := by
  change List.eraseRepsBy.loop (· == ·) a (b :: as) [] = _
  simp only [List.eraseRepsBy.loop]
  cases a == b with
  | true => rfl
  | false => exact eraseReps_loop_eq b as [a]

variable [LawfulBEq α]

/-- Leaving out repetitions loses no element. -/
theorem mem_eraseReps {c : α} {as : List α} : c ∈ as.eraseReps ↔ c ∈ as := by
  cases as with
  | nil => rfl
  | cons a as =>
    induction as generalizing a with
    | nil => rfl
    | cons b as ih =>
      rw [eraseReps_cons_cons]
      by_cases hab : a = b
      · simp [hab, ih]
      · simp [hab, ih]

/-- A sorted list without its repetitions increases strictly. -/
theorem pairwise_lt_eraseReps {α : Type} [LinearOrder α] [BEq α] [LawfulBEq α] {as : List α}
    (h : as.Pairwise (· ≤ ·)) : as.eraseReps.Pairwise (· < ·) := by
  cases as with
  | nil => exact List.Pairwise.nil
  | cons a as =>
    induction as generalizing a with
    | nil => exact List.pairwise_singleton _ _
    | cons b as ih =>
      rw [eraseReps_cons_cons]
      by_cases hab : a = b
      · subst hab
        simpa using ih a h.tail
      · have hlt : a < b := lt_of_le_of_ne (List.rel_of_pairwise_cons h List.mem_cons_self) hab
        rw [if_neg (by simpa using hab)]
        refine List.pairwise_cons.2 ⟨fun c hc => ?_, ih b h.tail⟩
        rcases List.mem_cons.1 (mem_eraseReps.1 hc) with rfl | hc
        · exact hlt
        · exact lt_of_lt_of_le hlt (List.rel_of_pairwise_cons h.tail hc)

end Repetitions

namespace Archive

/-- The last entry with a name has some content. -/
def Last (es : List Entry) (name : String) (data : ByteArray) : Prop :=
  ∃ front behind, es = front ++ (name, data) :: behind ∧ ∀ e ∈ behind, e.1 ≠ name

/-- The longest run of entries at the front whose names start with a prefix. -/
structure LongestRun (before : String) (es run : List Entry) : Prop where
  /-- The run stands at the front. -/
  front : run <+: es
  /-- All its names start with the prefix. -/
  under : ∀ e ∈ run, before.toList <+: e.1.toList
  /-- No such run is longer. -/
  longest : ∀ other, other <+: es → (∀ e ∈ other, before.toList <+: e.1.toList) → other <+: run

/-- The entries that are taken as long as their names start with a prefix are the longest run. -/
theorem longestRun_takeWhile (before : String) (es : List Entry) :
    LongestRun before es (es.takeWhile fun e => before.toList.isPrefixOf e.1.toList) where
  front := List.takeWhile_prefix _
  under e he := by
    have hunder := List.mem_takeWhile_imp he
    exact List.isPrefixOf_iff_prefix.1 hunder
  longest other hfront hunder := by
    obtain ⟨rest, rfl⟩ := hfront
    rw [List.takeWhile_append_of_pos fun e he => List.isPrefixOf_iff_prefix.2 (hunder e he)]
    exact List.prefix_append _ _

/-- Without a prefix the scan takes all entries. -/
theorem leadingOf_empty (complete : Bool) (ms : List Tar.Member) :
    leadingOf "" complete ms = entriesOf complete ms := by
  induction ms with
  | nil => rfl
  | cons m ms ih =>
    have hunder : "".toList.isPrefixOf (memberName m).toList = true :=
      List.isPrefixOf_iff_prefix.2 (List.nil_prefix)
    rw [leadingOf, entriesOf, ih, hunder]
    rfl

variable {t : FileTree} {p : Path}

/-- An index has the entries of the scan without a prefix, and fails if the scan does. -/
theorem ofPath_eq_scanLeading (t : FileTree) (p : Path) :
    ArchiveIndex.ofPath t p = (scanLeading t p "").map fun es => ⟨p, es⟩ := by
  rw [ArchiveIndex.ofPath, scanLeading]
  cases contents t p with
  | error e => rfl
  | ok c =>
    dsimp only
    rw [leadingOf_empty]

/-- Every scan of an archive that can be scanned to its end is a run at the front of that scan. -/
theorem scanLeading_of_all {es : List Entry} (h : scanLeading t p "" = .ok es) (before : String) :
    scanLeading t p before =
      .ok (es.takeWhile fun e => before.toList.isPrefixOf e.1.toList) := by
  obtain ⟨c, hc, hes⟩ := scanLeading_eq_ok_iff.1 h
  rw [leadingOf_empty] at hes
  exact scanLeading_eq_ok_iff.2 ⟨c, hc, leadingOf_of_entriesOf hes⟩

end Archive

namespace ArchiveIndex

open Archive

variable {i : ArchiveIndex} {name before : String} {data : ByteArray}

/-- The content of a name is that of the last entry with it. -/
theorem read?_eq_some_iff : i.read? name = some data ↔ Last i.entries name data := by
  rw [read?, Option.map_eq_some_iff]
  constructor
  · rintro ⟨⟨name', data'⟩, hfound, rfl⟩
    obtain ⟨hname, front, behind, hsplit, hbehind⟩ := List.find?_eq_some_iff_append.1 hfound
    obtain rfl : name' = name := by simpa using hname
    refine ⟨behind.reverse, front.reverse, ?_, fun e he => ?_⟩
    · rw [← List.reverse_reverse i.entries, hsplit]
      simp
    · simpa using hbehind e (List.mem_reverse.1 he)
  · rintro ⟨front, behind, hsplit, hbehind⟩
    refine ⟨(name, data), List.find?_eq_some_iff_append.2 ⟨by simp, behind.reverse, front.reverse,
      ?_, fun e he => ?_⟩, rfl⟩
    · rw [hsplit]
      simp
    · simpa using hbehind e (List.mem_reverse.1 he)

/-- An index has the names of its entries. -/
theorem contains_iff : i.contains name = true ↔ ∃ e ∈ i.entries, e.1 = name := by
  simp [contains]

/-- The names are those that the index has. -/
theorem mem_names_iff : name ∈ i.names ↔ i.contains name = true := by
  rw [names, mem_eraseReps, List.mem_mergeSort, List.mem_map, contains_iff]

/-- The names increase strictly. -/
theorem pairwise_names (i : ArchiveIndex) : i.names.Pairwise (· < ·) :=
  pairwise_lt_eraseReps (List.pairwise_mergeSort' (· ≤ ·) _)

/-- The names under a prefix are those that start with it. -/
theorem mem_namesUnder_iff :
    name ∈ i.namesUnder before ↔ i.contains name = true ∧ before.toList <+: name.toList := by
  rw [namesUnder, List.mem_filter, mem_names_iff, List.isPrefixOf_iff_prefix]

/-- They increase strictly. -/
theorem pairwise_namesUnder (i : ArchiveIndex) (before : String) :
    (i.namesUnder before).Pairwise (· < ·) := i.pairwise_names.filter _

/-- An index tells of every name what a list of entries tells of it. -/
structure Indexes (i : ArchiveIndex) (es : List Entry) : Prop where
  /-- A name has the content of the last entry with it. -/
  read?_iff : ∀ name data, i.read? name = some data ↔ Last es name data
  /-- It has no other names than those of the entries. -/
  contains_iff : ∀ name, i.contains name = true ↔ ∃ e ∈ es, e.1 = name
  /-- The names under a prefix increase strictly. -/
  increasing : ∀ before, (i.namesUnder before).Pairwise (· < ·)
  /-- They are the names that start with the prefix. -/
  mem_namesUnder_iff : ∀ before name,
    name ∈ i.namesUnder before ↔ i.contains name = true ∧ before.toList <+: name.toList

/-- An index indexes its entries. -/
theorem indexes_entries (i : ArchiveIndex) : i.Indexes i.entries where
  read?_iff _ _ := read?_eq_some_iff
  contains_iff _ := contains_iff
  increasing := i.pairwise_namesUnder
  mem_namesUnder_iff _ _ := mem_namesUnder_iff

end ArchiveIndex

namespace Archive

/-- The index of an archive tallies with its scans. -/
structure Tallies (index : Except IoError ArchiveIndex)
    (scan : String → Except IoError (List Entry)) : Prop where
  /-- The archive can be indexed if the scan without a prefix succeeds, and only then. -/
  indexed_iff : (∃ i, index = .ok i) ↔ ∃ es, scan "" = .ok es
  /-- The index is that of the entries of this scan. -/
  indexes : ∀ i es, index = .ok i → scan "" = .ok es → i.Indexes es
  /-- Every other scan succeeds as well, with the longest run at the front of this one. -/
  scanned : ∀ es before, scan "" = .ok es →
    ∃ run, scan before = .ok run ∧ LongestRun before es run
  /-- If any scan fails, so does the index. -/
  failed : ∀ before e, scan before = .error e → ∃ e', index = .error e'

/-- Whatever bytes an archive file holds, its index tallies with its scans. -/
theorem tallies_of_file (t : FileTree) (p : Path) :
    Tallies (ArchiveIndex.ofPath t p) (scanLeading t p) := by
  have hindex := ofPath_eq_scanLeading t p
  refine ⟨?indexed_iff, ?indexes, fun es before hes => ?scanned, fun before e he => ?failed⟩
  case indexed_iff =>
    rw [hindex]
    cases scanLeading t p "" <;> simp [Except.map]
  case indexes =>
    intro i es hi hes
    rw [hindex, hes] at hi
    obtain rfl := Except.ok.inj hi
    exact ArchiveIndex.indexes_entries _
  case scanned => exact ⟨_, scanLeading_of_all hes before, longestRun_takeWhile before es⟩
  case failed =>
    rw [hindex]
    cases hes : scanLeading t p "" with
    | error e' => exact ⟨e', rfl⟩
    | ok es =>
      rw [scanLeading_of_all hes] at he
      cases he

end Archive

end Overlay
