import Overlay.Table
import Overlay.Text.Blank
import Overlay.Text.Pieces

/-!
# Origin descriptors

A descriptor is a table of keys and values with the identities that signed the origin. Its written
form has a line `Key: Value` for each entry; a line that starts with a space continues the value
above it, and the first empty line ends the table.
-/

namespace Overlay

/-- What an origin says about itself. -/
structure Descriptor where
  /-- The keys and their values. -/
  entries : Table String String
  /-- The signing identities, in archive order. -/
  signers : List String
  deriving DecidableEq, Repr, Inhabited

namespace Descriptor

/-- The descriptor that says nothing. -/
def empty : Descriptor := ⟨Table.empty, []⟩

/-- The value of a key. -/
def get? (d : Descriptor) (key : String) : Option String := d.entries.get? key

/-- Whether there are neither entries nor signers. -/
def isEmpty (d : Descriptor) : Bool := d.entries.isEmpty && d.signers.isEmpty

/-- The same entries with other signers. -/
def withSigners (d : Descriptor) (signers : List String) : Descriptor := { d with signers }

/-- What reading has found so far. -/
structure Reading where
  /-- The entries of the lines read. -/
  entries : Table String String
  /-- The key of the latest entry, which a continuation line extends. -/
  current : Option String

namespace Reading

/-- Nothing read yet. -/
def start : Reading := ⟨Table.empty, none⟩

/-- Take in the content of a continuation line. -/
def extend (r : Reading) (rest : List Char) : Reading :=
  match r.current with
  | some key => { r with entries := r.entries.modify key (· ++ String.ofList rest) }
  | none => r

/-- Take in an entry line, cut at its first colon. A line without a colon says nothing. -/
def entry (r : Reading) (line : List Char) : Reading :=
  match line.dropWhile (· != ':') with
  | [] => r
  | _ :: value =>
    let key := String.ofList (Text.trim (line.takeWhile (· != ':')))
    ⟨r.entries.insert key (String.ofList (Text.trimStart value)), some key⟩

/-- Take in one line that is not empty. -/
def line (r : Reading) : List Char → Reading
  | ' ' :: rest => r.extend rest
  | cs => r.entry cs

end Reading

/-- The lines of a text in front of its first empty line, without their carriage returns. -/
def mainLines (text : List Char) : List (List Char) :=
  ((Text.pieces (· == '\n') text).map (Text.dropEndWhile (· == '\r'))).takeWhile (· != [])

/-- Read the entries of a written descriptor. -/
def parseChars (text : List Char) : Descriptor :=
  ⟨((mainLines text).foldl Reading.line Reading.start).entries, []⟩

/-- Read the entries of a written descriptor. -/
def parse (text : String) : Descriptor := parseChars text.toList

end Descriptor

end Overlay
