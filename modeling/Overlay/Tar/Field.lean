import Overlay.Text.Blank
import Overlay.Text.Pieces
import Overlay.Text.Utf8

/-!
# Numbers and records in tar archives

Header fields hold octal numbers, or binary ones when their first bit is set. Extension records
are lines `length key=value`, whose length counts the whole line.
-/

namespace Overlay.Tar

/-- One more than the greatest number that a field can give. -/
def wordLimit : Nat := Nat.pow 2 64

/-- The digit that a character writes in a base up to ten. -/
def digit? (base : Nat) (c : Char) : Option Nat :=
  if c.isDigit then (some (c.toNat - '0'.toNat)).filter (· < base) else none

/-- The number that digits write. -/
def digits? (base : Nat) (cs : List Char) : Option Nat :=
  cs.foldlM (fun n c => (digit? base c).map (base * n + ·)) 0

/-- The number below `wordLimit` that a text writes: digits, behind an optional plus sign. -/
def number? (base : Nat) (cs : List Char) : Option Nat :=
  let ds := if cs.head? = some '+' then cs.drop 1 else cs
  if ds = [] then none else (digits? base ds).filter (· < wordLimit)

/-- At most `count` bytes from a position on. -/
def slice (bytes : ByteArray) (start count : Nat) : ByteArray :=
  bytes.extract start (min (start + count) bytes.size)

/-- The bytes in front of the first null byte. -/
def untilNull (field : ByteArray) : ByteArray :=
  match field.data.toList.findIdx? (· == 0) with
  | some n => field.extract 0 n
  | none => field

/-- The number in an octal field: the trimmed text in front of the first null byte. -/
def octal? (field : ByteArray) : Option Nat := do
  let text ← Text.Utf8.decode? (untilNull field)
  number? 8 (Text.trim text.toList)

/-- The number in the last eight bytes of a field, most significant byte first. -/
def binary (field : ByteArray) : Nat :=
  (slice field (field.size - 8) 8).foldl (fun n b => 256 * n + b.toNat) 0

/-- The number in a size field, octal or binary. -/
def size? (field : ByteArray) : Option Nat :=
  match field.data[0]? with
  | some b => if 0x80 ≤ b then some (binary field) else octal? field
  | none => none

/-- A key and its value in an extension. -/
structure Record where
  /-- The key. -/
  key : List UInt8
  /-- The value. -/
  value : List UInt8

/-- The record on a line, if it is one: the length in front of the first space must be that of the
line with its line feed, and an equals sign must follow. -/
def record? (line : List UInt8) : Option Record := do
  let before := line.takeWhile (· != 0x20)
  let rest ← (line.drop before.length).tail?
  let length ← (Text.Utf8.decode? ⟨before.toArray⟩).bind fun s => number? 10 s.toList
  if length ≠ line.length + 1 then none
  else
    let key := rest.takeWhile (· != 0x3D)
    let value ← (rest.drop key.length).tail?
    some ⟨key, value⟩

/-- The records of an extension, in front of its first empty line; none for a malformed one. -/
def records (extension : ByteArray) : List (Option Record) :=
  ((Text.pieces (· == 0x0A) extension.data.toList).takeWhile (· != [])).map record?

/-- The value of the first record with a key; malformed records are passed over. -/
def value? (key : String) (extension : ByteArray) : Option ByteArray :=
  (((records extension).filterMap id).find? (·.key == key.toUTF8.data.toList)).map fun r =>
    ⟨r.value.toArray⟩

/-- The number of the first record with a key, unless a malformed record comes before it. -/
def count? (key : String) (extension : ByteArray) : Option Nat :=
  match (records extension).find? fun r => r.all (·.key == key.toUTF8.data.toList) with
  | some (some r) => do
    let text ← Text.Utf8.decode? ⟨r.value.toArray⟩
    number? 10 text.toList
  | _ => none

end Overlay.Tar
