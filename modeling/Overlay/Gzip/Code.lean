/-!
# Canonical prefix codes

A prefix code is given by the length of each symbol's codeword, zero for a symbol without one.
Codewords of one length are consecutive numbers in the order of their symbols, and shorter
codewords come first. A codeword is read from its most significant bit on, so it is enough to know
how many codewords each length has and the symbols in codeword order.
-/

namespace Overlay.Gzip

/-- Bit `p` of a byte sequence, counted from the least significant bit of each byte. -/
def bitAt? (bytes : ByteArray) (p : Nat) : Option Nat :=
  if h : p / 8 < bytes.size then some ((bytes[p / 8].toNat >>> (p % 8)) % 2) else none

/-- The number in `count` bits from bit `p` on, least significant bit first. -/
def bitsAt? (bytes : ByteArray) (p : Nat) : Nat → Option Nat
  | 0 => some 0
  | count + 1 => do
    let low ← bitAt? bytes p
    let high ← bitsAt? bytes (p + 1) count
    some (low + 2 * high)

/-- Why decoding stops early. -/
inductive Stall where
  /-- The input ends. -/
  | ended
  /-- The input is wrong. -/
  | wrong
  deriving DecidableEq, Repr

/-- Read a number of `count` bits at bit `p`. -/
def readBits (bytes : ByteArray) (p count : Nat) : Except Stall (Nat × Nat) :=
  match bitsAt? bytes p count with
  | some n => .ok (n, p + count)
  | none => .error .ended

/-- The longest codeword. -/
def maxCodeLength : Nat := 15

/-- A canonical prefix code. -/
structure Code where
  /-- The number of codewords of each length. -/
  counts : Array Nat
  /-- The symbols in codeword order. -/
  symbols : Array Nat

namespace Code

/-- The symbols with a codeword of some length. -/
def symbolsOf (lengths : List Nat) (length : Nat) : List Nat :=
  (lengths.zipIdx.filter (·.1 == length)).map (·.2)

/-- The part of all codewords of `maxCodeLength` bits that start with a codeword of the code. -/
def covered (lengths : List Nat) : Nat :=
  lengths.foldl (fun n l => if l = 0 then n else n + Nat.pow 2 (maxCodeLength - l)) 0

/-- The code with the given codeword lengths. Its codewords must use up all bit sequences, unless
it has at most one symbol. -/
def ofLengths? (lengths : List Nat) : Option Code :=
  let used := lengths.filter (· != 0)
  if covered lengths = Nat.pow 2 maxCodeLength ∨ used.length ≤ 1 then
    let bySize := (List.range (maxCodeLength + 1)).map fun l =>
      if l = 0 then [] else symbolsOf lengths l
    some ⟨(bySize.map List.length).toArray, bySize.flatten.toArray⟩
  else none

/-- Read the rest of a codeword. `word` is the number read so far, `first` the first codeword of
the next length less one doubling, and `index` the number of shorter codewords; `left` more bits
may come. -/
def readFrom (code : Code) (bytes : ByteArray) :
    (left p word first index : Nat) → Except Stall (Nat × Nat)
  | 0, _, _, _, _ => .error .wrong
  | left + 1, p, word, first, index =>
    match bitAt? bytes p with
    | none => .error .ended
    | some bit =>
      let word := 2 * word + bit
      let first := 2 * first
      let count := code.counts.getD (maxCodeLength - left) 0
      if word < first + count then
        match code.symbols[index + (word - first)]? with
        | some symbol => .ok (symbol, p + 1)
        | none => .error .wrong
      else readFrom code bytes left (p + 1) word (first + count) (index + count)

/-- Read a codeword at bit `p`. -/
def read (code : Code) (bytes : ByteArray) (p : Nat) : Except Stall (Nat × Nat) :=
  code.readFrom bytes maxCodeLength p 0 0 0

end Code

end Overlay.Gzip
