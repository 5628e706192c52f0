import Overlay.Tar.Sparse

/-!
# Tar archives

An archive is a sequence of members, each a header block of 512 bytes and its data, padded to whole
blocks. Reading gives the members in order, as far as the stream can be read, and whether it ended
as an archive should: at a block of zeros or at the end of the stream where a header could start.
Some members only describe the next one: its name, its link or its extension records.
-/

namespace Overlay.Tar

/-- A member of an archive. -/
structure Member where
  /-- The name as the archive stores it. -/
  name : ByteArray
  /-- Whether the member is a regular file. -/
  isFile : Bool
  /-- The data, cut short if the stream ends inside it; none if the stream fails inside it. -/
  content? : Option ByteArray

/-- What can be read of an archive. -/
structure Contents where
  /-- The members that have a readable header, in order. -/
  members : List Member
  /-- Whether reading all members succeeds; otherwise it fails behind the last of them. -/
  complete : Bool

/-- The contents of a stream that fails at once. -/
def Contents.broken : Contents := ⟨[], false⟩

/-- Another member in front. -/
def Contents.cons (m : Member) (c : Contents) : Contents := { c with members := m :: c.members }

/-- What is known of a member before its own header. -/
structure Ahead where
  /-- Its long name. -/
  longName? : Option ByteArray := none
  /-- Whether its long link has been given. -/
  longLink : Bool := false
  /-- Its extension records. -/
  extension? : Option ByteArray := none

/-- Whether a member has been announced. -/
def Ahead.pending (a : Ahead) : Bool :=
  a.longName?.isSome || a.longLink || a.extension?.isSome

/-- The two layouts of a header with a mark. -/
inductive Layout where
  /-- The layout with a name prefix. -/
  | ustar
  /-- The layout of the GNU archiver. -/
  | gnu
  deriving DecidableEq

/-- The layout of a header, by its mark and version; a header without a mark has neither. -/
def layout? (header : ByteArray) : Option Layout :=
  let mark := slice header 257 8
  if mark == "ustar\x0000".toUTF8 then some .ustar
  else if mark == "ustar  \x00".toUTF8 then some .gnu
  else none

/-- The type mark of a header. -/
def typeMark (header : ByteArray) : UInt8 := header.data.getD 156 0

/-- Whether a block holds zeros only. -/
def isZero (block : ByteArray) : Bool := block.data.all (· == 0)

/-- The sum of a header's bytes with blanks for the checksum. -/
def sum (header : ByteArray) : Nat :=
  let add := fun (n : Nat) (b : UInt8) => n + b.toNat
  (slice header 156 356).foldl add ((slice header 0 148).foldl add (8 * 32))

/-- Whether a header's checksum is right. -/
def sumFits (header : ByteArray) : Bool := octal? (slice header 148 8) == some (sum header)

/-- The name in a header. A prefix goes in front of it with a slash. -/
def headerName (header : ByteArray) : ByteArray :=
  let name := untilNull (slice header 0 100)
  let before := untilNull (slice header 345 155)
  if layout? header = some .ustar ∧ before.size ≠ 0 then before ++ "/".toUTF8 ++ name else name

/-- The bytes without a null byte at the end. -/
def dropNull (bytes : ByteArray) : ByteArray :=
  if bytes.data.back? = some 0 then bytes.extract 0 (bytes.size - 1) else bytes

/-- The name of a member: its long name, else the path of its extension, else the header's. -/
def nameOf (header : ByteArray) (a : Ahead) : ByteArray :=
  match a.longName? with
  | some name => dropNull name
  | none => (a.extension?.bind (value? "path")).getD (headerName header)

/-- The size of a member: that of its extension, else the header's, which must be well formed in
either case. -/
def sizeOf? (header : ByteArray) (a : Ahead) : Option Nat :=
  (size? (slice header 124 12)).map fun size => (a.extension?.bind (count? "size")).getD size

/-- A size rounded up to whole blocks. -/
def padded (size : Nat) : Nat := (size + (blockSize - 1)) / blockSize * blockSize

/-- The data of a member from a position on. It fails only if the stream does. -/
def dataAt? (stream : Delivery) (p size : Nat) : Option ByteArray :=
  if p + size ≤ stream.bytes.size ∨ stream.intact ∨ size = 0 then some (slice stream.bytes p size)
  else none

/-- What a member does in its archive. -/
inductive Role where
  /-- It is a member by itself. -/
  | own
  /-- It describes the next member. -/
  | describes (a : Ahead)
  /-- It describes the next member but cannot be read or repeats what is known. -/
  | unusable

/-- The role of a member. Only a header with a mark can describe the next member: its long name
under the type mark `L`, its long link under `K` and its extension records under `x`. -/
def role (header : ByteArray) (data : Option ByteArray) (a : Ahead) : Role :=
  if layout? header = none then .own
  else if typeMark header = 0x4C then
    match data, a.longName? with
    | some name, none => .describes { a with longName? := some name }
    | _, _ => .unusable
  else if typeMark header = 0x4B then
    if data.isSome && !a.longLink then .describes { a with longLink := true } else .unusable
  else if typeMark header = 0x78 then
    match data, a.extension? with
    | some records, none => .describes { a with extension? := some records }
    | _, _ => .unusable
  else .own

/-- The position behind a member, if its header holds. A sparse member must have a header of the
GNU archiver and a map that is in order; `next` is the position behind its data without the map. -/
def behindMember? (header : ByteArray) (stream : Delivery) (p size next : Nat) : Option Nat :=
  if typeMark header ≠ 0x53 then some next
  else if layout? header ≠ some .gnu then none
  else (mapBlocks? header size stream p).map fun count => next + blockSize * count

/-- Whether a type mark is that of a regular file. -/
def isFileMark (mark : UInt8) : Bool := mark == 0x30 || mark == 0

/-- What stands at a position of an archive. -/
inductive Item where
  /-- The end, proper or not. -/
  | ends (complete : Bool)
  /-- A description of the next member; what comes next stands at `next`. -/
  | describes (a : Ahead) (next : Nat)
  /-- A member; what comes next stands at `next`. -/
  | member (m : Member) (next : Nat)

/-- What stands at a position, given what has been announced of it. -/
def itemAt (stream : Delivery) (p : Nat) (a : Ahead) : Item :=
  let available := stream.bytes.size
  if available < p then .ends false
  else if available = p then .ends (stream.intact && !a.pending)
  else if available < p + blockSize then .ends false
  else
    let header := slice stream.bytes p blockSize
    if isZero header then .ends !a.pending
    else if !sumFits header then .ends false
    else
      match sizeOf? header a with
      | none => .ends false
      | some size =>
        let next := p + blockSize + padded size
        if wordLimit ≤ size + (blockSize - 1) ∨ wordLimit ≤ next then .ends false
        else
          let data := dataAt? stream (p + blockSize) size
          match role header data a with
          | .unusable => .ends false
          | .describes a => .describes a next
          | .own =>
            match behindMember? header stream (p + blockSize) size next with
            | none => .ends false
            | some next => .member ⟨nameOf header a, isFileMark (typeMark header), data⟩ next

/-- The members from a position on. `fuel` bounds the number of headers. -/
def membersFrom (stream : Delivery) : Nat → Nat → Ahead → Contents
  | 0, _, _ => .broken
  | fuel + 1, p, a =>
    match itemAt stream p a with
    | .ends complete => ⟨[], complete⟩
    | .describes a next => membersFrom stream fuel next a
    | .member m next => (membersFrom stream fuel next {}).cons m

/-- The members of an archive. -/
def read (stream : Delivery) : Contents :=
  membersFrom stream (stream.bytes.size / blockSize + 2) 0 {}

end Overlay.Tar
