import Overlay.Proofs.Registration
import Overlay.Proofs.Views

/-!
# Looking for a resource and reading it

A registry is looked through in two ways: for the place of a resource, and for its content. Both go
through the origins in the same order, open the same views on the way and leave the same notices,
and both stop at the first origin that has the resource, also when it cannot be read there.
-/

namespace Overlay

/-- Asking an origin for a resource opens the views that reading it opens. -/
theorem Origin.holds_snd (t : FileTree) (resource : String) (o : Origin) (s : LookupState) :
    (o.holds t resource s).2 = (o.readResource t resource s).2 := by
  unfold holds readResource
  split
  · rfl
  · split
    · dsimp only
      split
      · rfl
      · split <;> rfl
    · rfl

namespace Registry

variable {t : FileTree} {resource : String} {os : List Origin} {s : LookupState}

/-- The two look-ups go hand in hand: one finds nothing if the other does, and both leave the same
views and notices. -/
theorem findIn_resolveIn :
    ((findIn t resource os s).1 = none ↔ (resolveIn t resource os s).1 = .ok none) ∧
      (findIn t resource os s).2 = (resolveIn t resource os s).2 := by
  induction os generalizing s with
  | nil => exact ⟨by simp [findIn, resolveIn], rfl⟩
  | cons o os ih =>
    have hsame := o.holds_snd t resource s
    have hread := @Origin.readResource_eq_none_iff t o s resource
    rw [findIn, resolveIn]
    generalize o.holds t resource s = held at hsame hread
    generalize o.readResource t resource s = read at hsame hread
    obtain ⟨found, s₁⟩ := held
    obtain ⟨answer, s₂⟩ := read
    obtain rfl : s₁ = s₂ := hsame
    cases found with
    | false =>
      obtain rfl : answer = .ok none := hread.2 rfl
      exact ih
    | true =>
      have hne : answer ≠ .ok none := by
        intro he
        cases hread.1 he
      rcases answer with e | _ | found
      · exact ⟨by simp, rfl⟩
      · exact absurd rfl hne
      · exact ⟨by simp, rfl⟩

/-- All copies of a resource are none if the first is. -/
theorem findAllIn_eq_nil_iff :
    (findAllIn t resource os s).1 = [] ↔ (findIn t resource os s).1 = none := by
  induction os generalizing s with
  | nil => simp [findAllIn, findIn]
  | cons o os ih =>
    rw [findAllIn, findIn]
    rcases o.holds t resource s with ⟨_ | _, s₁⟩
    · exact ih
    · simp

/-- A resource has a place in a registry exactly if reading it does not come out empty. -/
theorem find?_eq_none_iff {r : Registry} :
    (r.find? t resource s).1 = none ↔ (r.resolve? t resource s).1 = .ok none :=
  findIn_resolveIn.1

/-- Looking for a resource leaves the views and notices that reading it leaves. -/
theorem find?_snd (r : Registry) :
    (r.find? t resource s).2 = (r.resolve? t resource s).2 := findIn_resolveIn.2

/-- All places of a resource are none if the first is. -/
theorem findAll_eq_nil_iff {r : Registry} :
    (r.findAll t resource s).1 = [] ↔ (r.find? t resource s).1 = none := findAllIn_eq_nil_iff

/-- A look-up that is repeated at once finds the same copy. -/
theorem Consistent.resolve?_again {r : Registry} (h : r.Consistent) (t : FileTree)
    (resource : String) (s : LookupState) :
    (r.resolve? t resource (r.resolve? t resource s).2).1 = (r.resolve? t resource s).1 :=
  resolveIn_again h.distinct fun _ _ => rfl

variable {o : Origin}

/-- A registry with one origin reads what the origin has. -/
theorem resolve?_only :
    ((only o).resolve? t resource s).1 =
      (o.readResource t resource s).1.map (Option.map fun found => (o, found)) := by
  change (resolveIn t resource [o] s).1 = _
  rw [resolveIn]
  generalize o.readResource t resource s = r
  rcases r with ⟨e | _ | found, s₁⟩ <;> rfl

/-- A registry with one origin finds what the origin has. -/
theorem isSome_find?_only :
    ((only o).find? t resource s).1.isSome = (o.holds t resource s).1 := by
  change (findIn t resource [o] s).1.isSome = _
  rw [findIn]
  generalize o.holds t resource s = r
  rcases r with ⟨_ | _, s₁⟩ <;> rfl

/-- In a registry with one origin, an archive with a live view, a copy is found in the view. -/
theorem resolve?_only_of_live {i : ArchiveIndex} {bytes : ByteArray} (hkind : o.kind = .archive)
    (hlive : s.archives.get? o.location = some i) (hb : Path.staysBelow resource = true)
    (hread : i.read? resource = some bytes) :
    (only o).resolve? t resource s = (.ok (some (o, ⟨o.locate resource, bytes⟩)), s) := by
  have hview : o.view t s = (some i, s) := by
    rw [Origin.view, ArchiveTable.openView, hlive]
  change resolveIn t resource [o] s = _
  rw [resolveIn, Origin.readResource, hb, if_neg (by decide), hkind]
  dsimp only
  rw [hview]
  dsimp only
  rw [Option.bind_some, hread]
  rfl

end Registry

end Overlay
