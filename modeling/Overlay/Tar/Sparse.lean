import Overlay.Gzip
import Overlay.Tar.Field

/-!
# Members with holes

A sparse member stores only the stretches of its content that hold data. Their map starts in the
member's header and may go on in blocks behind it. The stretches must stand in order, cover the
stored data and end where the content ends.
-/

namespace Overlay.Tar

/-- The size of a block. -/
def blockSize : Nat := 512

/-- What the stretches listed so far amount to. -/
structure Stretches where
  /-- Where the last of them ends in the content. -/
  reach : Nat
  /-- How much data they take. -/
  taken : Nat
  deriving DecidableEq, Repr

namespace Stretches

/-- Take in the stretch whose offset and length stand at a position of a block. A field that starts
with a null byte means that there is none. Data starts at the start of a block and is at most
`stored` in all. -/
def addAt? (stored : Nat) (block : ByteArray) (s : Stretches) (p : Nat) : Option Stretches :=
  let offset := slice block p 12
  let length := slice block (p + 12) 12
  if offset.data[0]? = some 0 ∨ length.data[0]? = some 0 then some s
  else do
    let offset ← size? offset
    let length ← size? length
    if length ≠ 0 ∧ s.taken % blockSize ≠ 0 then none
    else if offset < s.reach then none
    else if wordLimit ≤ offset + length then none
    else if stored < s.taken + length then none
    else some ⟨offset + length, s.taken + length⟩

/-- Take in `count` stretches that stand behind one another in a block. -/
def addAll? (stored : Nat) (block : ByteArray) (p count : Nat) (s : Stretches) : Option Stretches :=
  (List.range count).foldlM (fun s n => addAt? stored block s (p + 24 * n)) s

/-- Take in the stretches in the blocks from a position on, each of which says whether another one
follows. Also gives the number of blocks. `fuel` bounds that number. -/
def addBlocks? (stored : Nat) (bytes : ByteArray) : Nat → Nat → Stretches → Option (Stretches × Nat)
  | 0, _, _ => none
  | fuel + 1, p, s =>
    if bytes.size < p + blockSize then none
    else
      let block := slice bytes p blockSize
      match addAll? stored block 0 21 s with
      | none => none
      | some s =>
        if block.data[504]? = some 1 then
          (addBlocks? stored bytes fuel (p + blockSize) s).map fun r => (r.1, r.2 + 1)
        else some (s, 1)

end Stretches

/-- The number of blocks that the map of a sparse member takes behind its header, if the map is in
order. `stored` is the size of the stored data and `p` the position behind the header. -/
def mapBlocks? (header : ByteArray) (stored : Nat) (stream : Delivery) (p : Nat) : Option Nat := do
  let s ← Stretches.addAll? stored header 386 4 ⟨0, 0⟩
  let (s, count) ←
    if header.data[482]? = some 1 then
      s.addBlocks? stored stream.bytes (stream.bytes.size / blockSize + 1) p
    else some (s, 0)
  let whole ← size? (slice header 483 12)
  if s.reach = whole ∧ s.taken = stored then some count else none

end Overlay.Tar
