import Overlay.Config
import Overlay.Symbol
import Overlay.SymbolName
import Overlay.TagStore

/-!
# Local precedence

A module's own copy of a symbol takes precedence over one that came from an early origin. The rule
asks three questions in turn: whether the module has the symbol's resource, whether the candidate's
origin is tagged early, and whether the module can load its copy. Reserved resources are hidden
before any look-up.
-/

namespace Overlay

/-- A search path of a module's own, with states of type `σ`. -/
structure LocalLookup (σ : Type) where
  /-- Whether it has a resource. -/
  has : String → σ → Bool × σ
  /-- The symbol that it has of a name. -/
  load : String → σ → Option Symbol × σ

namespace Precedence

/-- Whether a symbol came from an origin with an early tag. -/
def isEarly (tags : TagStore) (candidate : Symbol) : Bool :=
  (candidate.codeSource.bind tags.get?).any (·.isEarly)

theorem isEarly_eq_true_iff {tags : TagStore} {candidate : Symbol} :
    isEarly tags candidate = true ↔
      ∃ p, candidate.codeSource = some p ∧ tags.get? p = some .early := by
  unfold isEarly
  cases candidate.codeSource with
  | none => simp
  | some p => simp [Option.any_eq_true, OriginTag.isEarly_eq_true_iff]

/-- The symbol that a module uses: its own copy if the candidate is an early one, else the
candidate. -/
def choose {σ : Type} (c : Config) (tags : TagStore) (l : LocalLookup σ) (name : String)
    (candidate : Symbol) (s : σ) : Symbol × σ :=
  match l.has (SymbolName.resource name c.resourceSuffix) s with
  | (false, s) => (candidate, s)
  | (true, s) =>
    if isEarly tags candidate then
      match l.load name s with
      | (some own, s) => (own, s)
      | (none, s) => (candidate, s)
    else (candidate, s)

/-- The result of a look-up, or `hidden` without a look-up if the resource is reserved. -/
def unlessReserved {α : Type} (c : Config) (resource : String) (hidden : α)
    (lookup : Unit → α) : α :=
  if c.isReserved resource then hidden else lookup ()

end Precedence

end Overlay
