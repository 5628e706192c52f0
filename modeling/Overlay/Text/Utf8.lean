/-!
# UTF-8

Bytes are read as a sequence of units: a character for each well-formed part and `none` for each
maximal ill-formed part. Strict decoding refuses input with an ill-formed part; lenient decoding
writes U+FFFD for it.
-/

/-- Contents are compared by their bytes. -/
instance Overlay.decidableEqBytes : DecidableEq ByteArray := ByteArray.instDecidableEq

namespace Overlay.Text.Utf8

/-- A character whose first bytes have been read. -/
structure Pending where
  /-- How many bytes are still to come, at least one. -/
  owed : Nat
  /-- The least value the next byte may have. -/
  low : UInt8
  /-- The greatest value the next byte may have. -/
  high : UInt8
  /-- The bits of the code point read so far. -/
  bits : Nat

/-- What a byte means at the start of a character. -/
inductive Lead where
  /-- It is a character by itself. -/
  | whole (c : Char)
  /-- It opens a longer character. -/
  | opens (p : Pending)
  /-- No character starts with it. -/
  | invalid

/-- The meaning of a byte at the start of a character. The ranges of the second byte leave out
overlong forms, surrogates and code points above U+10FFFF. -/
def lead (b : UInt8) : Lead :=
  let n := b.toNat
  if b < 0x80 then .whole (Char.ofNat n)
  else if b < 0xC2 then .invalid
  else if b < 0xE0 then .opens ⟨1, 0x80, 0xBF, n - 0xC0⟩
  else if b < 0xF0 then
    .opens ⟨2, if b == 0xE0 then 0xA0 else 0x80, if b == 0xED then 0x9F else 0xBF, n - 0xE0⟩
  else if b < 0xF5 then
    .opens ⟨3, if b == 0xF0 then 0x90 else 0x80, if b == 0xF4 then 0x8F else 0xBF, n - 0xF0⟩
  else .invalid

/-- What a byte at the start of a character adds to the units, and the character that it opens. -/
def start (b : UInt8) : List (Option Char) × Option Pending :=
  match lead b with
  | .whole c => ([some c], none)
  | .opens p => ([], some p)
  | .invalid => ([none], none)

/-- What a byte adds to the units, and the character that is open behind it. A byte that does not
continue the open character ends it as ill-formed and starts anew. -/
def take : Option Pending → UInt8 → List (Option Char) × Option Pending
  | none, b => start b
  | some p, b =>
    if p.low ≤ b && b ≤ p.high then
      let bits := p.bits * 64 + (b.toNat - 0x80)
      if p.owed ≤ 1 then ([some (Char.ofNat bits)], none)
      else ([], some ⟨p.owed - 1, 0x80, 0xBF, bits⟩)
    else (none :: (start b).1, (start b).2)

/-- The units of the bytes that follow an opened character, or of all bytes when none is open. -/
def unitsFrom : Option Pending → List UInt8 → List (Option Char)
  | none, [] => []
  | some _, [] => [none]
  | p, b :: bs => (take p b).1 ++ unitsFrom (take p b).2 bs

/-- The characters and ill-formed parts of a byte sequence. -/
def units (bs : ByteArray) : List (Option Char) := unitsFrom none bs.toList

/-- The text of well-formed UTF-8. -/
def decode? (bs : ByteArray) : Option String :=
  ((units bs).mapM id).map String.ofList

/-- The text of any bytes, with U+FFFD for each ill-formed part. -/
def decodeLenient (bs : ByteArray) : String :=
  String.ofList ((units bs).map (·.getD (Char.ofNat 0xFFFD)))

end Overlay.Text.Utf8
