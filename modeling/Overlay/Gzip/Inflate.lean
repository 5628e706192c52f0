import Overlay.Gzip.Code

/-!
# Deflate

A deflated sequence is made of blocks: stored bytes, or literals and copies of earlier output
written with two prefix codes. `inflate` gives all output up to the point where the input ends or
turns out to be wrong, and the position behind the last block if it got that far. `handedOver` is
the part of that output that a reader gets to see.
-/

namespace Overlay.Gzip

/-- What decoding produced. -/
structure Inflated where
  /-- The output. -/
  output : ByteArray
  /-- The bit behind the last block, or why it was not reached. -/
  next : Except Stall Nat

/-- The base and the number of extra bits of each copy length, from symbol 257 on. -/
def lengthTable : Array (Nat × Nat) :=
  #[(3, 0), (4, 0), (5, 0), (6, 0), (7, 0), (8, 0), (9, 0), (10, 0), (11, 1), (13, 1), (15, 1),
    (17, 1), (19, 2), (23, 2), (27, 2), (31, 2), (35, 3), (43, 3), (51, 3), (59, 3), (67, 4),
    (83, 4), (99, 4), (115, 4), (131, 5), (163, 5), (195, 5), (227, 5), (258, 0)]

/-- The base and the number of extra bits of each copy distance. -/
def distanceTable : Array (Nat × Nat) :=
  #[(1, 0), (2, 0), (3, 0), (4, 0), (5, 1), (7, 1), (9, 2), (13, 2), (17, 3), (25, 3), (33, 4),
    (49, 4), (65, 5), (97, 5), (129, 6), (193, 6), (257, 7), (385, 7), (513, 8), (769, 8),
    (1025, 9), (1537, 9), (2049, 10), (3073, 10), (4097, 11), (6145, 11), (8193, 12), (12289, 12),
    (16385, 13), (24577, 13)]

/-- Read the extra bits of a symbol: the value that it stands for with them. -/
def extended (table : Array (Nat × Nat)) (bytes : ByteArray) (symbol p : Nat) :
    Except Stall (Nat × Nat) :=
  match table[symbol]? with
  | none => .error .wrong
  | some (base, extra) => (readBits bytes p extra).map fun r => (base + r.1, r.2)

/-- The byte that stands `distance` before the end. In front of all output there are zeros. -/
def byteBack (out : ByteArray) (distance : Nat) : UInt8 :=
  if distance ≤ out.size then out.data.getD (out.size - distance) 0 else 0

/-- Append `count` bytes, each the one that stands `distance` before the end. -/
def copyBack (distance : Nat) : Nat → ByteArray → ByteArray
  | 0, out => out
  | count + 1, out => copyBack distance count (out.push (byteBack out distance))

/-- Read the copy that a length symbol starts: how many bytes, and how far back they are. -/
def readCopy (distances : Code) (bytes : ByteArray) (symbol p : Nat) :
    Except Stall ((Nat × Nat) × Nat) := do
  let (count, p) ← extended lengthTable bytes (symbol - 257) p
  let (s, p) ← distances.read bytes p
  let (distance, p) ← extended distanceTable bytes s p
  .ok ((count, distance), p)

/-- Decode the symbols of a block. `fuel` bounds their number. -/
def inflateSymbols (literals distances : Code) (bytes : ByteArray) :
    Nat → Nat → ByteArray → Inflated
  | 0, _, out => ⟨out, .error .ended⟩
  | fuel + 1, p, out =>
    match literals.read bytes p with
    | .error e => ⟨out, .error e⟩
    | .ok (symbol, p) =>
      if symbol < 256 then
        inflateSymbols literals distances bytes fuel p (out.push symbol.toUInt8)
      else if symbol = 256 then ⟨out, .ok p⟩
      else
        match readCopy distances bytes symbol p with
        | .error e => ⟨out, .error e⟩
        | .ok ((count, distance), p) =>
          inflateSymbols literals distances bytes fuel p (copyBack distance count out)

/-- A block of stored bytes: two bytes with their number, their complement, and the bytes. -/
def inflateStored (bytes : ByteArray) (p : Nat) (out : ByteArray) : Inflated :=
  let start := (p + 7) / 8
  match bitsAt? bytes (8 * start) 16, bitsAt? bytes (8 * start + 16) 16 with
  | some count, some complement =>
    if count + complement = 0xFFFF then
      let behind := start + 4 + count
      ⟨out ++ bytes.extract (start + 4) behind,
        if behind ≤ bytes.size then .ok (8 * behind) else .error .ended⟩
    else ⟨out, .error .wrong⟩
  | _, _ => ⟨out, .error .ended⟩

/-- The code for literals and lengths of a block without codes of its own. -/
def fixedLiteralLengths : List Nat :=
  List.replicate 144 8 ++ List.replicate 112 9 ++ List.replicate 24 7 ++ List.replicate 8 8

/-- The code for distances of a block without codes of its own. -/
def fixedDistanceLengths : List Nat := List.replicate 32 5

/-- The order in which a block lists the codeword lengths of its first code. -/
def lengthOrder : List Nat := [16, 17, 18, 0, 8, 7, 9, 6, 10, 5, 11, 4, 12, 3, 13, 2, 14, 1, 15]

/-- Read `count` numbers of three bits each. -/
def readTriples (bytes : ByteArray) : Nat → Nat → Except Stall (List Nat × Nat)
  | 0, p => .ok ([], p)
  | count + 1, p => do
    let (n, p) ← readBits bytes p 3
    let (more, p) ← readTriples bytes count p
    .ok (n :: more, p)

/-- Read what a symbol of the first code adds to the codeword lengths that are listed so far,
latest first. -/
def listedLengths (bytes : ByteArray) (symbol p : Nat) (latestFirst : List Nat) :
    Except Stall (List Nat × Nat) :=
  if symbol < 16 then .ok ([symbol], p)
  else if symbol = 16 then
    match latestFirst with
    | [] => .error .wrong
    | last :: _ => (readBits bytes p 2).map fun r => (List.replicate (3 + r.1) last, r.2)
  else if symbol = 17 then (readBits bytes p 3).map fun r => (List.replicate (3 + r.1) 0, r.2)
  else (readBits bytes p 7).map fun r => (List.replicate (11 + r.1) 0, r.2)

/-- Read exactly `count` codeword lengths. -/
def readLengths (code : Code) (bytes : ByteArray) (count : Nat) :
    Nat → Nat → List Nat → Except Stall (List Nat × Nat)
  | 0, _, _ => .error .wrong
  | fuel + 1, p, latestFirst =>
    if latestFirst.length = count then .ok (latestFirst.reverse, p)
    else if count < latestFirst.length then .error .wrong
    else do
      let (symbol, p) ← code.read bytes p
      let (more, p) ← listedLengths bytes symbol p latestFirst
      readLengths code bytes count fuel p (more ++ latestFirst)

/-- The code with the given codeword lengths, which must be those of a code. -/
def codeOf (lengths : List Nat) : Except Stall Code :=
  match Code.ofLengths? lengths with
  | some code => .ok code
  | none => .error .wrong

/-- The most literals and lengths that have codewords. -/
def literalLimit : Nat := 286

/-- The most distances that have codewords. -/
def distanceLimit : Nat := 30

/-- Read the two codes that a block brings with it. -/
def readCodes (bytes : ByteArray) (p : Nat) : Except Stall ((Code × Code) × Nat) := do
  let (literals, p) ← readBits bytes p 5
  let (distances, p) ← readBits bytes p 5
  let (listed, p) ← readBits bytes p 4
  let literals := literals + 257
  let distances := distances + 1
  if literalLimit < literals ∨ distanceLimit < distances then .error .wrong
  else
    let (triples, p) ← readTriples bytes (listed + 4) p
    let given := lengthOrder.zip triples
    let first ← codeOf ((List.range 19).map fun s => (given.lookup s).getD 0)
    let total := literals + distances
    let (lengths, p) ← readLengths first bytes total (total + 1) p []
    let a ← codeOf (lengths.take literals)
    let b ← codeOf (lengths.drop literals)
    .ok ((a, b), p)

/-- Read the codes of a block that has symbols: the fixed ones for kind 1, its own for kind 2. -/
def codesOf (kind : Nat) (bytes : ByteArray) (p : Nat) : Except Stall ((Code × Code) × Nat) :=
  if kind = 1 then do
    let a ← codeOf fixedLiteralLengths
    let b ← codeOf fixedDistanceLengths
    .ok ((a, b), p)
  else if kind = 2 then readCodes bytes p
  else .error .wrong

/-- Decode one block of a kind. -/
def inflateBlock (kind : Nat) (bytes : ByteArray) (p : Nat) (out : ByteArray) : Inflated :=
  if kind = 0 then inflateStored bytes p out
  else
    match codesOf kind bytes p with
    | .error e => ⟨out, .error e⟩
    | .ok ((literals, distances), p) =>
      inflateSymbols literals distances bytes (8 * bytes.size + 1) p out

/-- Decode blocks up to one that is marked as the last. `fuel` bounds their number. -/
def inflateBlocks (bytes : ByteArray) : Nat → Nat → ByteArray → Inflated
  | 0, _, out => ⟨out, .error .ended⟩
  | fuel + 1, p, out =>
    match bitAt? bytes p, bitsAt? bytes (p + 1) 2 with
    | some last, some kind =>
      let block := inflateBlock kind bytes (p + 3) out
      match block.next with
      | .error _ => block
      | .ok next => if last = 1 then block else inflateBlocks bytes fuel next block.output
    | _, _ => ⟨out, .error .ended⟩

/-- Decode the blocks that start at a byte. -/
def inflate (bytes : ByteArray) (start : Nat) : Inflated :=
  inflateBlocks bytes (8 * bytes.size + 1) (8 * start) ByteArray.empty

/-! ## What a reader sees -/

/-- The size of the windows in which output is handed over. -/
def windowSize : Nat := 32768

/-- The size of the first portion of the input. -/
def firstPortion : Nat := 8192

/-- The size of each further portion of the input. -/
def laterPortion : Nat := 32768

/-- The ends of the portions in which an input of a size is taken, except for the last portion.
Latest first. -/
def portionEnds (size : Nat) : List Nat :=
  let ends := (List.range (size / laterPortion + 1)).map fun n => firstPortion + laterPortion * n
  ends.reverse.filter (· < size)

/-- How much output is handed over before the input turns out to be wrong: all full windows, and
what could be decoded from the portions that were in order. -/
def handedBeforeWrong (bytes : ByteArray) (start output : Nat) : Nat :=
  let sound := (portionEnds bytes.size).findSome? fun e =>
    let part := inflate (bytes.extract 0 e) start
    match part.next with
    | .error .wrong => none
    | _ => some part.output.size
  max (output / windowSize * windowSize) (sound.getD 0)

/-- The output that a reader gets of the blocks that start at a byte. When the input ends it is all
that was decoded; when it is wrong, what was not handed over before is lost. -/
def handedOver (bytes : ByteArray) (start : Nat) : Inflated :=
  let whole := inflate bytes start
  match whole.next with
  | .error .wrong =>
    ⟨whole.output.extract 0 (handedBeforeWrong bytes start whole.output.size), whole.next⟩
  | _ => whole

end Overlay.Gzip
