import Mathlib.Data.List.Nodup
import Overlay.Descriptor
import Overlay.Proofs.Trimming

/-!
# Written descriptors

A descriptor is written with a line for each entry; a long value goes on in lines that start with a
space. A line ends with a line feed or with a carriage return and a line feed, each as it likes, and
behind an empty line there may be anything. Reading takes the text apart into the lines that it was
written as, and an entry's lines enter the table as its key with its whole value: the table is that
of the written entries, and no other.
-/

namespace Overlay

namespace Table

variable {κ α : Type} [DecidableEq κ]

/-- The table of pairs with distinct keys holds just these pairs. -/
theorem ofList_eq_of_nodup {es : List (κ × α)} (h : (es.map (·.1)).Nodup) : ofList es = ⟨es⟩ := by
  induction es using List.reverseRecOn with
  | nil => rfl
  | append_singleton es e ih =>
    rw [List.map_append, List.map_singleton, List.nodup_append] at h
    have he : lookup e.1 es = none := by
      rw [lookup_eq_none_iff]
      exact fun hmem => h.2.2 _ hmem _ (List.mem_singleton_self _) rfl
    rw [ofList, List.foldl_append, ← ofList, ih h.1]
    exact congrArg Table.mk (put_of_lookup he e.2)

end Table

namespace Descriptor

/-- What a line ends with. -/
inductive LineEnd where
  /-- A line feed. -/
  | lf
  /-- A carriage return and a line feed. -/
  | crlf
  deriving DecidableEq, Repr

/-- The characters in front of the line feed. -/
def LineEnd.returns : LineEnd → List Char
  | lf => []
  | crlf => ['\r']

/-- The characters of a line end. -/
def LineEnd.chars (e : LineEnd) : List Char := e.returns ++ ['\n']

/-- The text of a line end. -/
def LineEnd.text (e : LineEnd) : String := String.ofList e.chars

theorem LineEnd.eq_return {e : LineEnd} {c : Char} (h : c ∈ e.returns) : c = '\r' := by
  cases e with
  | lf => cases h
  | crlf => exact List.mem_singleton.1 h

/-- A part of a value with the end of the line that it is written on. -/
structure Chunk where
  /-- The part of the value. -/
  text : String
  /-- What the line ends with. -/
  ending : LineEnd

/-- A part of a value in its written form. -/
def Chunk.written (c : Chunk) : String := c.text ++ c.ending.text

/-- An entry as it is written, with its value on one line or wrapped over several. -/
structure WrittenEntry where
  /-- The key. -/
  key : String
  /-- The part of the value on the line of the key. -/
  first : Chunk
  /-- The parts on the lines below. -/
  further : List Chunk

namespace WrittenEntry

/-- The parts of the value. -/
def chunks (e : WrittenEntry) : List Chunk := e.first :: e.further

/-- The whole value. -/
def value (e : WrittenEntry) : String := String.join (e.chunks.map (·.text))

/-- The written form: the key, a colon, a space and the first part, then a line that starts with a
space for each further part. -/
def written (e : WrittenEntry) : String :=
  e.key ++ ": " ++ e.first.written ++ String.join (e.further.map fun c => " " ++ c.written)

/-- What an entry must be like so that its written form can be told from others. -/
structure Writable (e : WrittenEntry) : Prop where
  /-- The key has no blanks at its ends. -/
  trimmed : Text.trimmed e.key = e.key
  /-- The key has no colon. -/
  colonless : ':' ∉ e.key.toList
  /-- The key stays on its line. -/
  unbroken : '\n' ∉ e.key.toList
  /-- The value does not start with a blank. -/
  flush : ∀ c, e.first.text.toList.head? = some c → Text.isBlank c = false
  /-- Each part of the value stays on its line. -/
  whole : ∀ c ∈ e.chunks, '\n' ∉ c.text.toList
  /-- No part ends like a line end. -/
  unreturned : ∀ c ∈ e.chunks, c.text.toList.getLast? ≠ some '\r'

/-- The lines of the written form with their ends. -/
def lines (e : WrittenEntry) : List (List Char × LineEnd) :=
  (e.key.toList ++ ':' :: ' ' :: e.first.text.toList, e.first.ending) ::
    e.further.map fun c => (' ' :: c.text.toList, c.ending)

end WrittenEntry

/-- What may stand behind the entries: nothing, or an empty line and any text. -/
def remainder : Option (LineEnd × String) → String
  | none => ""
  | some (ending, rest) => ending.text ++ rest

/-- The written form of entries. -/
def written (es : List WrittenEntry) (behind : Option (LineEnd × String)) : String :=
  String.join (es.map (·.written)) ++ remainder behind

/-- A line with its end. -/
def lineChars (l : List Char × LineEnd) : List Char := l.1 ++ l.2.chars

/-- What the text of a line is like that is not the last one of its table. -/
structure IsLine (content : List Char) : Prop where
  /-- The line is not empty. -/
  ne_nil : content ≠ []
  /-- The line is one. -/
  unbroken : '\n' ∉ content
  /-- The line does not end like a line end. -/
  unreturned : content.getLast? ≠ some '\r'

/-- What stands on one line and does not end like a line end may go on a line. -/
theorem IsLine.append {front part : List Char} (h : IsLine front) (hpart : '\n' ∉ part)
    (hlast : part.getLast? ≠ some '\r') : IsLine (front ++ part) := by
  refine ⟨by simp [h.ne_nil], by simp [h.unbroken, hpart], ?_⟩
  rw [List.getLast?_append]
  cases hp : part.getLast? with
  | none => exact h.unreturned
  | some c =>
    rw [hp] at hlast
    exact hlast

/-- Carriage returns are dropped from the end of a line, and no others. -/
theorem dropEndWhile_returns {content : List Char} (h : content.getLast? ≠ some '\r')
    (e : LineEnd) : Text.dropEndWhile (· == '\r') (content ++ e.returns) = content := by
  have hkept : Text.dropEndWhile (· == '\r') content = content := by
    rw [Text.dropEndWhile_eq_rdropWhile, List.rdropWhile_eq_self_iff]
    intro hne hlast
    exact h (by rw [List.getLast?_eq_getLast_of_ne_nil hne, beq_iff_eq.1 hlast])
  cases e with
  | lf => rw [LineEnd.returns, List.append_nil, hkept]
  | crlf =>
    rw [LineEnd.returns, Text.dropEndWhile_eq_rdropWhile,
      List.rdropWhile_concat_pos (· == '\r') content '\r' (beq_self_eq_true '\r'),
      ← Text.dropEndWhile_eq_rdropWhile, hkept]

/-- A text is cut behind its first line. -/
theorem pieces_line {content : List Char} (h : '\n' ∉ content) (e : LineEnd) (rest : List Char) :
    Text.pieces (· == '\n') (content ++ e.chars ++ rest) =
      (content ++ e.returns) :: Text.pieces (· == '\n') rest := by
  have hone : ∀ c ∈ content ++ e.returns, (c == '\n') = false := by
    intro c hc
    rw [beq_eq_false_iff_ne]
    rintro rfl
    rcases List.mem_append.1 hc with hc | hc
    · exact h hc
    · exact absurd (LineEnd.eq_return hc) (by decide)
  have hcut := Text.pieces_append (p := (· == '\n')) (content ++ e.returns)
    (beq_self_eq_true '\n') rest
  rw [Text.pieces_of_forall hone] at hcut
  simpa [LineEnd.chars] using hcut

/-- The first line of a text comes first, if it is not empty. -/
theorem mainLines_line {content : List Char} (h : IsLine content) (e : LineEnd)
    (rest : List Char) : mainLines (content ++ e.chars ++ rest) = content :: mainLines rest := by
  rw [mainLines, pieces_line h.unbroken, List.map_cons, dropEndWhile_returns h.unreturned,
    List.takeWhile_cons_of_pos (by simpa using h.ne_nil), ← mainLines]

/-- An empty line ends the table, whatever follows. -/
theorem mainLines_blank (e : LineEnd) (rest : List Char) : mainLines (e.chars ++ rest) = [] := by
  have hcut : Text.pieces (· == '\n') (e.chars ++ rest) =
      e.returns :: Text.pieces (· == '\n') rest := pieces_line List.not_mem_nil e rest
  have hdropped : Text.dropEndWhile (· == '\r') ([] ++ e.returns) = [] :=
    dropEndWhile_returns (by simp) e
  rw [List.nil_append] at hdropped
  rw [mainLines, hcut, List.map_cons, hdropped]
  rfl

/-- A text is read as the lines that it was written as. -/
theorem mainLines_lines {ls : List (List Char × LineEnd)} (h : ∀ l ∈ ls, IsLine l.1)
    (rest : List Char) :
    mainLines (ls.flatMap lineChars ++ rest) = ls.map (·.1) ++ mainLines rest := by
  induction ls with
  | nil => rfl
  | cons l ls ih =>
    have hrest := ih fun l' hl' => h l' (List.mem_cons_of_mem l hl')
    rw [List.flatMap_cons, List.append_assoc, lineChars, mainLines_line (h l List.mem_cons_self),
      hrest, List.map_cons, List.cons_append]

namespace Reading

/-- The line of a key enters the key with the first part of its value. -/
theorem line_key {key first : String} (htrim : Text.trimmed key = key) (hcolon : ':' ∉ key.toList)
    (hflush : ∀ c, first.toList.head? = some c → Text.isBlank c = false) (r : Reading) :
    r.line (key.toList ++ ':' :: ' ' :: first.toList) =
      ⟨r.entries.insert key first, some key⟩ := by
  have hkey : Text.trim key.toList = key.toList := by
    rw [← String.toList_inj, Text.trimmed, String.toList_ofList] at htrim
    exact htrim
  -- The line does not start with a space, so it continues no value.
  have hentry : r.line (key.toList ++ ':' :: ' ' :: first.toList) =
      r.entry (key.toList ++ ':' :: ' ' :: first.toList) := by
    cases hc : key.toList with
    | nil => rfl
    | cons c cs =>
      rw [hc] at hkey
      have hne : c ≠ ' ' := by
        rintro rfl
        exact absurd (Text.isBlank_of_trim_cons hkey) (by decide)
      simp [line, hne]
  have hname : ∀ c ∈ key.toList, (c != ':') = true := by
    intro c hc
    rw [bne_iff_ne]
    rintro rfl
    exact hcolon hc
  have hvalue : Text.trimStart (' ' :: first.toList) = first.toList := by
    rw [Text.trimStart, List.dropWhile_cons_of_pos (by decide)]
    cases hf : first.toList with
    | nil => rfl
    | cons c cs =>
      have hc := hflush c (by rw [hf, List.head?_cons])
      exact List.dropWhile_cons_of_neg (by simp [hc])
  rw [hentry, entry, List.dropWhile_append_of_pos hname, List.takeWhile_append_of_pos hname]
  simp [hkey, hvalue]

/-- A line that starts with a space extends the value of the latest key. -/
theorem line_further (t : Table String String) (key value part : String) :
    line ⟨t.insert key value, some key⟩ (' ' :: part.toList) =
      ⟨t.insert key (value ++ part), some key⟩ := by
  simp [line, extend, Table.modify, Table.insert_insert]

/-- All lines below the line of a key extend its value. -/
theorem foldl_further (t : Table String String) (key value : String) (parts : List String) :
    (parts.map fun part => ' ' :: part.toList).foldl line ⟨t.insert key value, some key⟩ =
      ⟨t.insert key (value ++ String.join parts), some key⟩ := by
  induction parts generalizing value with
  | nil => simp
  | cons part parts ih =>
    rw [List.map_cons, List.foldl_cons, line_further, ih, String.join_cons, String.append_assoc]

/-- The lines of an entry enter its key with its whole value. -/
theorem foldl_entry {e : WrittenEntry} (h : e.Writable) (r : Reading) :
    (e.lines.map (·.1)).foldl line r = ⟨r.entries.insert e.key e.value, some e.key⟩ := by
  have hparts : (e.further.map fun c => (' ' :: c.text.toList, c.ending)).map (·.1) =
      (e.further.map (·.text)).map fun part => ' ' :: part.toList := by
    rw [List.map_map, List.map_map]
    rfl
  rw [WrittenEntry.lines, List.map_cons, List.foldl_cons,
    line_key h.trimmed h.colonless h.flush, hparts, foldl_further, WrittenEntry.value,
    WrittenEntry.chunks, List.map_cons, String.join_cons]

/-- The lines of entries enter their pairs of keys and values in turn. -/
theorem entries_foldl {es : List WrittenEntry} (h : ∀ e ∈ es, e.Writable) (r : Reading) :
    (((es.flatMap (·.lines)).map (·.1)).foldl line r).entries =
      (es.map fun e => (e.key, e.value)).foldl (fun t p => t.insert p.1 p.2) r.entries := by
  induction es generalizing r with
  | nil => rfl
  | cons e es ih =>
    rw [List.flatMap_cons, List.map_append, List.foldl_append,
      foldl_entry (h e List.mem_cons_self), ih fun e' he' => h e' (List.mem_cons_of_mem e he')]
    rfl

end Reading

namespace WrittenEntry

variable {e : WrittenEntry}

/-- The lines of an entry are lines. -/
theorem Writable.isLine (h : e.Writable) : ∀ l ∈ e.lines, IsLine l.1 := by
  intro l hl
  rcases List.mem_cons.1 hl with rfl | hl
  · have hfirst := List.mem_cons_self (a := e.first) (l := e.further)
    have hfront : IsLine (e.key.toList ++ [':', ' ']) :=
      ⟨by simp, by simp [h.unbroken], by simp⟩
    simpa using hfront.append (h.whole e.first hfirst) (h.unreturned e.first hfirst)
  · obtain ⟨c, hc, rfl⟩ := List.mem_map.1 hl
    have hmem := List.mem_cons_of_mem e.first hc
    have hfront : IsLine [' '] := ⟨by decide, by decide, by decide⟩
    exact hfront.append (h.whole c hmem) (h.unreturned c hmem)

/-- The written form of an entry consists of its lines. -/
theorem toList_written (e : WrittenEntry) : e.written.toList = e.lines.flatMap lineChars := by
  simp [written, lines, lineChars, Chunk.written, LineEnd.text, String.toList_join,
    List.flatMap_map]

end WrittenEntry

/-- The written form of entries consists of their lines and what is behind them. -/
theorem toList_written (es : List WrittenEntry) (behind : Option (LineEnd × String)) :
    (written es behind).toList =
      (es.flatMap (·.lines)).flatMap lineChars ++ (remainder behind).toList := by
  rw [written, String.toList_append, String.toList_join, List.flatMap_map, List.flatMap_assoc]
  simp only [WrittenEntry.toList_written]

/-- What stands behind the entries is not read. -/
theorem mainLines_remainder (behind : Option (LineEnd × String)) :
    mainLines (remainder behind).toList = [] := by
  cases behind with
  | none => rfl
  | some b =>
    rw [remainder, LineEnd.text, String.toList_append, String.toList_ofList]
    exact mainLines_blank b.1 b.2.toList

/-- Reading written entries gives the table of their keys and values; of two entries with one key
the later one counts. -/
theorem parse_written_eq_ofList {es : List WrittenEntry} (h : ∀ e ∈ es, e.Writable)
    (behind : Option (LineEnd × String)) :
    parse (written es behind) = ⟨Table.ofList (es.map fun e => (e.key, e.value)), []⟩ := by
  have hlines : ∀ l ∈ es.flatMap (·.lines), IsLine l.1 := by
    intro l hl
    obtain ⟨e, he, hl⟩ := List.mem_flatMap.1 hl
    exact (h e he).isLine l hl
  rw [parse, parseChars, toList_written, mainLines_lines hlines, mainLines_remainder,
    List.append_nil, Reading.entries_foldl h]
  rfl

/-- Reading undoes writing: of entries with distinct keys each key has its value, the parts of it
put together, and there is nothing else in the table. -/
theorem parse_written {es : List WrittenEntry} (h : ∀ e ∈ es, e.Writable)
    (hkeys : (es.map (·.key)).Nodup) (behind : Option (LineEnd × String)) :
    parse (written es behind) = ⟨⟨es.map fun e => (e.key, e.value)⟩, []⟩ ∧
      ∀ key, (parse (written es behind)).get? key =
        (es.find? (·.key == key)).map (·.value) := by
  have hparse : parse (written es behind) = ⟨⟨es.map fun e => (e.key, e.value)⟩, []⟩ := by
    rw [parse_written_eq_ofList h, Table.ofList_eq_of_nodup]
    rwa [List.map_map]
  refine ⟨hparse, fun key => ?_⟩
  rw [hparse]
  exact Table.lookup_map WrittenEntry.key WrittenEntry.value key es

namespace Wrapped

/-- A value on two lines with different ends, and an entry with neither a key nor a value. -/
def entries : List WrittenEntry :=
  [⟨"Class-Path", ⟨"a.tar", .crlf⟩, [⟨" b.tar", .lf⟩]⟩, ⟨"", ⟨"", .lf⟩, []⟩]

/-- An empty line with a section of its own behind it. -/
def behind : Option (LineEnd × String) := some (.crlf, "Sealed: true\n")

/-- The written form of the two entries is read. -/
theorem parse_wrapped :
    (∀ e ∈ entries, e.Writable) ∧ (entries.map (·.key)).Nodup ∧
      written entries behind = "Class-Path: a.tar\r\n  b.tar\n: \n\r\nSealed: true\n" ∧
      parse (written entries behind) = ⟨⟨[("Class-Path", "a.tar b.tar"), ("", "")]⟩, []⟩ ∧
      (parse (written entries behind)).get? "Sealed" = none := by
  have hwritable : ∀ e ∈ entries, e.Writable := by
    intro e he
    rcases List.mem_cons.1 he with rfl | he
    · refine ⟨by decide, by decide, by decide, fun c hc => ?_, by decide, by decide⟩
      have hhead : some 'a' = some c := hc
      rw [← Option.some.inj hhead]
      decide
    · obtain rfl := List.mem_singleton.1 he
      refine ⟨by decide, by decide, by decide, fun c hc => ?_, by decide, by decide⟩
      have hhead : none = some c := hc
      cases hhead
  have hkeys : (entries.map (·.key)).Nodup := by decide
  obtain ⟨hparse, hget⟩ := parse_written hwritable hkeys behind
  exact ⟨hwritable, hkeys, by decide, hparse, hget "Sealed"⟩

end Wrapped

end Descriptor

end Overlay
