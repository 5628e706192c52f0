import Overlay.Toml.Value

/-!
# Reading TOML tokens

Each reader takes the characters in front of it and gives what it read with the characters that
are left, or nothing when they do not start with what it reads. Here are blanks and comments,
keys, strings, numbers and dates.
-/

namespace Overlay.Toml

/-- A reader of something at the start of a text. -/
abbrev Scan (α : Type) := List Char → Option (α × List Char)

/-- Whether a character is a space or a tab. -/
def isSpace (c : Char) : Bool := c == ' ' || c == '\t'

/-- Whether a character may stand in a comment or a string: a tab or no control character. -/
def isPrintable (c : Char) : Bool := c == '\t' || (0x20 ≤ c.toNat && c.toNat != 0x7F)

/-- Skip spaces and tabs. -/
def skipSpaces (cs : List Char) : List Char := cs.dropWhile isSpace

/-- The rest of a text behind a line end. -/
def lineEnd? : List Char → Option (List Char)
  | '\n' :: cs => some cs
  | '\r' :: '\n' :: cs => some cs
  | _ => none

/-- The rest of a text behind a comment, if one stands there. -/
def skipComment : List Char → List Char
  | '#' :: cs => cs.dropWhile isPrintable
  | cs => cs

/-- The rest of a text behind what may follow on a line: spaces, a comment, and the line's end or
the end of the text. -/
def finishLine (cs : List Char) : Option (List Char) :=
  match skipComment (skipSpaces cs) with
  | [] => some []
  | rest => lineEnd? rest

/-- Skip spaces, comments and line ends. `fuel` bounds the number of lines. -/
def skipLines : Nat → List Char → List Char
  | 0, cs => cs
  | fuel + 1, cs =>
    match lineEnd? (skipComment (skipSpaces cs)) with
    | some rest => skipLines fuel rest
    | none =>
      -- a comment that no line end follows is left for the caller to refuse
      skipSpaces cs

/-- The value of a hexadecimal digit. -/
def hexDigit? (c : Char) : Option Nat :=
  let n := c.toNat
  if 0x30 ≤ n ∧ n ≤ 0x39 then some (n - 0x30)
  else if 0x61 ≤ n ∧ n ≤ 0x66 then some (n - 0x57)
  else if 0x41 ≤ n ∧ n ≤ 0x46 then some (n - 0x37)
  else none

/-- The value of a digit of a base up to sixteen. -/
def digit? (base : Nat) (c : Char) : Option Nat := (hexDigit? c).filter (· < base)

/-- The number that hexadecimal digits write. -/
def hexValue (cs : List Char) : Option Nat :=
  cs.foldlM (fun n c => (hexDigit? c).map (16 * n + ·)) 0

/-- The character that an escape with `count` hexadecimal digits stands for. -/
def unicodeEscape (count : Nat) (cs : List Char) : Option (Char × List Char) := do
  let digits := cs.take count
  if digits.length ≠ count then none
  else
    let n ← hexValue digits
    if n.isValidChar then some (Char.ofNat n, cs.drop count) else none

/-- The character that stands behind a backslash, written out. -/
def escape : Scan Char
  | 'b' :: cs => some (Char.ofNat 8, cs)
  | 'f' :: cs => some (Char.ofNat 12, cs)
  | 'n' :: cs => some ('\n', cs)
  | 'r' :: cs => some ('\r', cs)
  | 't' :: cs => some ('\t', cs)
  | '"' :: cs => some ('"', cs)
  | '\\' :: cs => some ('\\', cs)
  | 'u' :: cs => unicodeEscape 4 cs
  | 'U' :: cs => unicodeEscape 8 cs
  | _ => none

/-- The characters of a string up to its double quote, which has been opened. -/
def basicBody : Nat → List Char → Option (List Char × List Char)
  | 0, _ => none
  | fuel + 1, cs =>
    match cs with
    | [] => none
    | '"' :: rest => some ([], rest)
    | '\\' :: rest => do
      let (c, rest) ← escape rest
      let (body, rest) ← basicBody fuel rest
      some (c :: body, rest)
    | c :: rest =>
      if isPrintable c then (basicBody fuel rest).map fun r => (c :: r.1, r.2) else none

/-- A string in double quotes. -/
def basicString : Scan String
  | '"' :: cs => (basicBody (cs.length + 1) cs).map fun r => (String.ofList r.1, r.2)
  | _ => none

/-- A string in single quotes, without escapes. -/
def literalString : Scan String
  | '\'' :: cs =>
    let body := cs.takeWhile fun c => isPrintable c && c != '\''
    match cs.drop body.length with
    | '\'' :: rest => some (String.ofList body, rest)
    | _ => none
  | _ => none

/-- What a run of quotes inside a string between triple quotes means: up to two quotes belong to
the string, and three more end it. The quotes that belong to it, and whether it ends. -/
def quoteRun (count : Nat) : Nat × Bool :=
  if count < 3 then (count, false) else (min (count - 3) 2, true)

/-- The rest behind a backslash that ends a line inside a string: spaces, a line end, and all
blanks that follow. -/
def lineContinuation? (cs : List Char) : Option (List Char) :=
  (lineEnd? (skipSpaces cs)).map fun rest =>
    -- a carriage return alone is no blank
    dropBlankLines (rest.length + 1) rest
where
  /-- Skip spaces and line ends. -/
  dropBlankLines : Nat → List Char → List Char
    | 0, cs => cs
    | fuel + 1, cs =>
      match lineEnd? (skipSpaces cs) with
      | some rest => dropBlankLines fuel rest
      | none => skipSpaces cs

/-- The characters of a string up to its triple quotes, which have been opened. Line ends are read
as a line feed; with `escapes`, backslashes are escapes. -/
def longBody (quote : Char) (escapes : Bool) : Nat → List Char → Option (List Char × List Char)
  | 0, _ => none
  | fuel + 1, cs =>
    match cs with
    | [] => none
    | c :: rest =>
      if c = quote then
        let (kept, ends) := quoteRun (cs.takeWhile (· == quote)).length
        let quotes := List.replicate kept quote
        if ends then some (quotes, cs.drop (kept + 3))
        else (longBody quote escapes fuel (cs.drop kept)).map fun r => (quotes ++ r.1, r.2)
      else if escapes && c == '\\' then
        match lineContinuation? rest with
        | some rest => longBody quote escapes fuel rest
        | none => do
          let (c, rest) ← escape rest
          let (body, rest) ← longBody quote escapes fuel rest
          some (c :: body, rest)
      else
        match lineEnd? cs with
        | some rest => (longBody quote escapes fuel rest).map fun r => ('\n' :: r.1, r.2)
        | none =>
          if isPrintable c then (longBody quote escapes fuel rest).map fun r => (c :: r.1, r.2)
          else none

/-- The text behind opened triple quotes without a line end that directly follows them. -/
def dropFirstLineEnd (cs : List Char) : List Char := (lineEnd? cs).getD cs

/-- A string of any of the four forms. -/
def string : Scan String
  | '"' :: '"' :: '"' :: cs => long '"' true cs
  | '\'' :: '\'' :: '\'' :: cs => long '\'' false cs
  | '"' :: cs => basicString ('"' :: cs)
  | cs => literalString cs
where
  /-- A string whose triple quotes have been opened. -/
  long (quote : Char) (escapes : Bool) (cs : List Char) : Option (String × List Char) :=
    let cs := dropFirstLineEnd cs
    (longBody quote escapes (cs.length + 1) cs).map fun r => (String.ofList r.1, r.2)

/-- Whether a character may stand in a key without quotes. -/
def isBareKeyChar (c : Char) : Bool := c.isAlphanum || c == '-' || c == '_'

/-- One part of a key. -/
def simpleKey : Scan String
  | '"' :: cs => basicString ('"' :: cs)
  | '\'' :: cs => literalString ('\'' :: cs)
  | cs =>
    match cs.takeWhile isBareKeyChar with
    | [] => none
    | key => some (String.ofList key, cs.drop key.length)

/-- How many levels values and keys may nest. -/
def depthLimit : Nat := 80

/-- The parts of a key with dots between them. -/
def keyParts : Nat → Scan (List String)
  | 0, _ => none
  | fuel + 1, cs => do
    let (part, rest) ← simpleKey (skipSpaces cs)
    match skipSpaces rest with
    | '.' :: rest => (keyParts fuel rest).map fun r => (part :: r.1, r.2)
    | rest => some ([part], rest)

/-- A key, with the spaces around it; it has fewer parts than `depthLimit`. -/
def key (cs : List Char) : Option (List String × List Char) :=
  (keyParts (cs.length + 1) cs).filter fun r => r.1.length < depthLimit

/-- Digits of a base, single underscores between them. The digits without the underscores. -/
def digits (base : Nat) : Scan (List Char)
  | [] => none
  | c :: cs =>
    match digit? base c with
    | none => none
    | some _ =>
      let (more, rest) := tail cs
      some (c :: more, rest)
where
  /-- Further digits, each behind at most one underscore. -/
  tail : List Char → List Char × List Char
    | [] => ([], [])
    | c :: cs =>
      if (digit? base c).isSome then
        let r := tail cs
        (c :: r.1, r.2)
      else
        match c, cs with
        | '_', d :: rest =>
          if (digit? base d).isSome then
            let r := tail rest
            (d :: r.1, r.2)
          else ([], '_' :: d :: rest)
        | _, _ => ([], c :: cs)

/-- A sign, if one stands there. -/
def sign : List Char → Option Char × List Char
  | '+' :: cs => (some '+', cs)
  | '-' :: cs => (some '-', cs)
  | cs => (none, cs)

/-- The number that digits of a base write. -/
def natValue (base : Nat) (cs : List Char) : Nat :=
  cs.foldl (fun n c => base * n + (hexDigit? c).getD 0) 0

/-- Digits of base ten without a leading zero, or a single zero. -/
def wholeDigits : Scan (List Char)
  | '0' :: cs => some (['0'], cs)
  | cs => digits 10 cs

/-- An integer that fits 64 bits. -/
def checkedInteger (n : Int) : Option Value :=
  if -(Nat.pow 2 63 : Int) ≤ n ∧ n < (Nat.pow 2 63 : Int) then some (.integer n) else none

/-- An integer of a base other than ten, behind the mark of the base. -/
def radixInteger (base : Nat) (cs : List Char) : Option (Value × List Char) := do
  let (ds, rest) ← digits base cs
  let v ← checkedInteger (natValue base ds)
  some (v, rest)

/-- An integer. -/
def integer : Scan Value
  | '0' :: 'x' :: cs => radixInteger 16 cs
  | '0' :: 'o' :: cs => radixInteger 8 cs
  | '0' :: 'b' :: cs => radixInteger 2 cs
  | cs => do
    let (s, cs) := sign cs
    let (ds, rest) ← wholeDigits cs
    let n : Int := natValue 10 ds
    let v ← checkedInteger (if s = some '-' then -n else n)
    some (v, rest)

/-- Whether the positive number `m · 10 ^ e` is too large for a double: the greatest double is
`2 ^ 1024 - 2 ^ 971`, and what lies half a step beyond rounds to infinity. -/
def overflows (m : Nat) (e : Int) : Bool :=
  let limit := Nat.pow 2 1024 - Nat.pow 2 970
  let size : Int := (Nat.toDigits 10 m).length
  if m = 0 then false
  else if 400 < size + e then true
  else if size + e < 300 then false
  else if 0 ≤ e then limit ≤ m * Nat.pow 10 e.toNat
  else limit * Nat.pow 10 (-e).toNat ≤ m

/-- The exponent of a floating-point number, if one stands there. -/
def exponent (cs : List Char) : Option (Option Int × List Char) :=
  match cs with
  | c :: rest =>
    if c = 'e' ∨ c = 'E' then do
      let (s, rest) := sign rest
      let (ds, rest) ← digits 10 rest
      let n : Int := natValue 10 ds
      some (some (if s = some '-' then -n else n), rest)
    else some (none, cs)
  | [] => some (none, [])

/-- A floating-point number: digits with a fraction, an exponent or both, or an infinity or a
not-a-number by name. A positive number that rounds to infinity is refused. -/
def float (cs : List Char) : Option (Value × List Char) :=
  let (s, body) := sign cs
  let written (rest : List Char) : Value :=
    .float (String.ofList (cs.take (cs.length - rest.length)))
  match body with
  | 'i' :: 'n' :: 'f' :: rest => some (written rest, rest)
  | 'n' :: 'a' :: 'n' :: rest => some (written rest, rest)
  | _ => do
    let (whole, rest) ← wholeDigits body
    let (fraction, rest) ← match rest with
      | '.' :: rest => (digits 10 rest).map fun r => (r.1, r.2)
      | _ => some ([], rest)
    let (e, rest) ← exponent rest
    if fraction = [] ∧ e = none then none
    else if s ≠ some '-' ∧
        overflows (natValue 10 (whole ++ fraction)) (e.getD 0 - fraction.length) then none
    else some (written rest, rest)

/-- A number of `count` digits from `low` to `high`. -/
def fixedDigits (count low high : Nat) : Scan Nat := fun cs =>
  let ds := cs.take count
  if ds.length = count ∧ ds.all Char.isDigit then
    let n := natValue 10 ds
    if low ≤ n ∧ n ≤ high then some (n, cs.drop count) else none
  else none

/-- The rest of a text behind a character. -/
def expect (c : Char) : List Char → Option (List Char)
  | d :: cs => if c = d then some cs else none
  | [] => none

/-- The number of days of a month. -/
def monthDays (year month : Nat) : Nat :=
  if month = 2 then
    if year % 4 = 0 ∧ (year % 100 ≠ 0 ∨ year % 400 = 0) then 29 else 28
  else if month = 4 ∨ month = 6 ∨ month = 9 ∨ month = 11 then 30
  else 31

/-- The rest behind a date. -/
def dateRest (cs : List Char) : Option (List Char) := do
  let (year, cs) ← fixedDigits 4 0 9999 cs
  let cs ← expect '-' cs
  let (month, cs) ← fixedDigits 2 1 12 cs
  let cs ← expect '-' cs
  let (_, cs) ← fixedDigits 2 1 (monthDays year month) cs
  some cs

/-- The rest behind a time of day. -/
def timeRest (cs : List Char) : Option (List Char) := do
  let (_, cs) ← fixedDigits 2 0 23 cs
  let cs ← expect ':' cs
  let (_, cs) ← fixedDigits 2 0 59 cs
  let cs ← expect ':' cs
  let (_, cs) ← fixedDigits 2 0 60 cs
  match cs with
  | '.' :: rest =>
    if rest.head?.any Char.isDigit then some (rest.dropWhile Char.isDigit) else none
  | _ => some cs

/-- The rest behind a distance from universal time, or all when none stands there. -/
def offsetRest (cs : List Char) : Option (List Char) :=
  match cs with
  | [] => some []
  | c :: rest =>
    if c = 'Z' ∨ c = 'z' then some rest
    else if c = '+' ∨ c = '-' then do
      let (_, rest) ← fixedDigits 2 0 23 rest
      let rest ← expect ':' rest
      let (_, rest) ← fixedDigits 2 0 59 rest
      some rest
    else some cs

/-- The rest behind a date with an optional time, or behind a time. A space between a date and
something that is no time ends the date. -/
def dateTimeRest (cs : List Char) : Option (List Char) :=
  match dateRest cs with
  | none => timeRest cs
  | some rest =>
    match rest with
    | c :: time =>
      if c = 'T' ∨ c = 't' then (timeRest time).bind offsetRest
      else if c = ' ' then
        match (timeRest time).bind offsetRest with
        | some rest => some rest
        | none => some rest
      else some rest
    | [] => some []

/-- A date, a time or both. -/
def dateTime (cs : List Char) : Option (Value × List Char) :=
  (dateTimeRest cs).map fun rest =>
    (.date (String.ofList (cs.take (cs.length - rest.length))), rest)

/-- A number or a date. -/
def numberOrDate (cs : List Char) : Option (Value × List Char) :=
  (dateTime cs).orElse fun _ => (float cs).orElse fun _ => integer cs

end Overlay.Toml
