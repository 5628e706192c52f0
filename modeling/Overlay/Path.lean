import Overlay.Text.Pieces

/-!
# Paths

A path is the text that a user or a file wrote. It is read as a sequence of components, which
ignores repeated slashes, a slash at the end and every `.` but a leading one; two paths are the
same place in writing when their components agree. `join` and `parent?` work on the text and keep
the spelling of what they leave in place.
-/

namespace Overlay

/-- A path as it was written. -/
structure Path where
  /-- The written path. -/
  text : String
  deriving DecidableEq, Repr, Inhabited

namespace Path

/-- One step of a path. -/
inductive Component where
  /-- The leading slash. -/
  | root
  /-- A leading `.`. -/
  | here
  /-- A `..`. -/
  | up
  /-- A name. -/
  | name (chars : List Char)
  deriving DecidableEq, Repr

/-- Whether a stretch of text between slashes means nothing: it is empty or a `.`. -/
def isIdle (segment : List Char) : Bool := segment == [] || segment == ['.']

/-- The component that a stretch of text between slashes stands for. -/
def component? (segment : List Char) : Option Component :=
  if isIdle segment then none
  else if segment = ['.', '.'] then some .up
  else some (.name segment)

/-- How a path begins, apart from names. -/
inductive Anchor where
  /-- With a slash. -/
  | root
  /-- With a `.` that stands alone or before a slash. -/
  | here
  /-- With a name, with `..` or not at all. -/
  | none
  deriving DecidableEq, Repr

/-- The text of an anchor. -/
def Anchor.chars : Anchor → List Char
  | root => ['/']
  | here => ['.']
  | none => []

/-- The component of an anchor. -/
def Anchor.components : Anchor → List Component
  | root => [.root]
  | here => [.here]
  | none => []

/-- The anchor of a written path and the text behind it. -/
def split : List Char → Anchor × List Char
  | '/' :: rest => (.root, rest)
  | ['.'] => (.here, [])
  | '.' :: '/' :: rest => (.here, '/' :: rest)
  | cs => (.none, cs)

/-- The stretches of text between the slashes behind the anchor; none when there is no text. -/
def segmentsOf (body : List Char) : List (List Char) :=
  if body = [] then [] else Text.pieces (· == '/') body

/-- The components of a written path. -/
def componentsOf (cs : List Char) : List Component :=
  (split cs).1.components ++ (segmentsOf (split cs).2).filterMap component?

/-- The components of a path. -/
def components (p : Path) : List Component := componentsOf p.text.toList

/-- Whether two paths have the same components. -/
def same (p q : Path) : Bool := p.components == q.components

/-- Whether a path starts at the root. -/
def isAbsolute (p : Path) : Bool := p.text.toList.head? == some '/'

/-- A path below another; an absolute one replaces it. -/
def join (base : Path) (rest : String) : Path :=
  if rest.toList.head? = some '/' then ⟨rest⟩
  else if base.text = "" ∨ base.text.toList.getLast? = some '/' then ⟨base.text ++ rest⟩
  else ⟨base.text ++ "/" ++ rest⟩

/-- Segments without the idle ones at the end. -/
def dropIdleEnd (segments : List (List Char)) : List (List Char) :=
  (segments.reverse.dropWhile isIdle).reverse

/-- A written path without its last component and without the slashes and dots in front of that
component. The root and the empty path have no parent. -/
def parentOf (cs : List Char) : Option (List Char) :=
  let (anchor, body) := split cs
  match dropIdleEnd (segmentsOf body) with
  | [] => if anchor = .here then some [] else none
  | segments => some (anchor.chars ++ Text.joined '/' (dropIdleEnd segments.dropLast))

/-- The path without its last component. -/
def parent? (p : Path) : Option Path := (parentOf p.text.toList).map fun cs => ⟨String.ofList cs⟩

/-- The path without its last `n` components. -/
def ancestor? : Nat → Path → Option Path
  | 0, p => some p
  | n + 1, p => p.parent?.bind (ancestor? n)

/-- The last component, if it is a name. -/
def fileName? (p : Path) : Option String :=
  match p.components.getLast? with
  | some (.name chars) => some (String.ofList chars)
  | _ => none

/-- The place of a kind of component in the order of paths. -/
def Component.rank : Component → Nat
  | root => 0
  | here => 1
  | up => 2
  | name _ => 3

/-- The characters of a component that is a name. -/
def Component.chars : Component → List Char
  | name chars => chars
  | _ => []

/-- Whether a component stands before another. -/
def Component.before (a b : Component) : Bool :=
  a.rank < b.rank || (a.rank == b.rank && decide (a.chars < b.chars))

/-- Whether a sequence of components does not stand after another, compared step by step. -/
def ordered : List Component → List Component → Bool
  | [], _ => true
  | _ :: _, [] => false
  | a :: as, b :: bs => a.before b || (a == b && ordered as bs)

/-- Whether a path does not stand after another. -/
def le (p q : Path) : Bool := ordered p.components q.components

/-- Whether a resource name stays below the place it is looked up in: it is not empty and has
names for components only. -/
def staysBelow (resource : String) : Bool :=
  resource != "" && (Path.mk resource).components.all fun
    | .name _ => true
    | _ => false

end Path

/-- What decides whether two paths are the same key of a table: their components. -/
abbrev PathKey := List Path.Component

end Overlay
