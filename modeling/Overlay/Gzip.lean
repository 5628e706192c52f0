import Overlay.Gzip.Checksum
import Overlay.Gzip.Inflate

/-!
# Gzip streams

A stream delivers bytes and then ends or fails. A file that starts with the gzip mark delivers the
content of its first member; the member's checksum and size are looked at behind the content, so a
reader that stops earlier never learns of a wrong one. Any other file delivers itself.
-/

namespace Overlay

/-- Bytes that a reader gets one after another. -/
structure Delivery where
  /-- The bytes. -/
  bytes : ByteArray
  /-- Whether the stream ends behind the bytes; otherwise it fails there. -/
  intact : Bool

namespace Gzip

/-- The stream that fails at once. -/
def broken : Delivery := ⟨ByteArray.empty, false⟩

/-- The number in `count` bytes from a position on, least significant byte first. -/
def littleEndian? (bytes : ByteArray) (p count : Nat) : Option Nat := bitsAt? bytes (8 * p) (8 * count)

/-- The most bytes of a name or a comment, with its null byte. -/
def headerTextLimit : Nat := 65536

/-- The position behind the next null byte, which must be among so many bytes. -/
def behindNull? (bytes : ByteArray) : Nat → Nat → Option Nat
  | 0, _ => none
  | fuel + 1, p =>
    if h : p < bytes.size then
      if bytes[p] = 0 then some (p + 1) else behindNull? bytes fuel (p + 1)
    else none

/-- Whether a bit of the header's flags is set. -/
def flagged (flags bit : Nat) : Bool := (flags >>> bit) % 2 == 1

/-- The position behind the header of a member. The method must be deflate and the reserved flags
clear; extra data, a name and a comment are skipped; a checksum of the header must be right. -/
def behindHeader? (bytes : ByteArray) : Option Nat := do
  let mark ← littleEndian? bytes 0 2
  let method ← littleEndian? bytes 2 1
  let flags ← littleEndian? bytes 3 1
  let _ ← littleEndian? bytes 9 1
  if mark ≠ 0x8B1F ∨ method ≠ 8 ∨ 32 ≤ flags then none
  else
    let p ← if flagged flags 2 then (littleEndian? bytes 10 2).map (12 + ·) else some 10
    let p ← if flagged flags 3 then behindNull? bytes headerTextLimit p else some p
    let p ← if flagged flags 4 then behindNull? bytes headerTextLimit p else some p
    if flagged flags 1 then
      let sum ← littleEndian? bytes p 2
      if sum = (crc32 (bytes.extract 0 p)).toNat % 65536 then some (p + 2) else none
    else some p

/-- Whether the trailer at a position names the checksum and size of the content. -/
def trailerFits (bytes : ByteArray) (p : Nat) (content : ByteArray) : Bool :=
  littleEndian? bytes p 4 == some (crc32 content).toNat &&
    littleEndian? bytes (p + 4) 4 == some (content.size % Nat.pow 2 32)

/-- The content of the first member. -/
def content (bytes : ByteArray) : Delivery :=
  match behindHeader? bytes with
  | none => broken
  | some start =>
    let inflated := handedOver bytes start
    match inflated.next with
    | .error _ => ⟨inflated.output, false⟩
    | .ok p => ⟨inflated.output, trailerFits bytes ((p + 7) / 8) inflated.output⟩

/-- Whether a file starts with the gzip mark. -/
def isMarked (bytes : ByteArray) : Bool := littleEndian? bytes 0 2 == some 0x8B1F

end Gzip

/-- The stream of a file's content, decompressed if the file starts with the gzip mark. -/
def Delivery.ofFile (bytes : ByteArray) : Delivery :=
  if Gzip.isMarked bytes then Gzip.content bytes else ⟨bytes, true⟩

end Overlay
