/-!
# Origin tags

The class of an origin, given to it when it is registered.
-/

namespace Overlay

/-- The class of an origin. -/
inductive OriginTag where
  /-- The host application's own archive. -/
  | primary
  /-- Support code of the loader. -/
  | support
  /-- An auxiliary archive registered before the host starts. -/
  | early
  /-- An origin of a module loader's own search path. -/
  | moduleLocal
  deriving DecidableEq, Repr

namespace OriginTag

/-- Every tag. -/
def all : List OriginTag := [primary, support, early, moduleLocal]

/-- The written name of a tag. -/
def text : OriginTag → String
  | primary => "primary"
  | support => "support"
  | early => "early"
  | moduleLocal => "local"

/-- The tag with a written name. -/
def ofText? (s : String) : Option OriginTag := all.find? (·.text == s)

theorem ofText?_text (t : OriginTag) : ofText? t.text = some t := by cases t <;> decide

/-- Whether definitions from an origin with this tag give way to a module's own. -/
def isEarly : OriginTag → Bool
  | early => true
  | _ => false

theorem isEarly_eq_true_iff {t : OriginTag} : t.isEarly = true ↔ t = early := by
  cases t <;> decide

end OriginTag

end Overlay
