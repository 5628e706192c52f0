import Mathlib.Algebra.Group.Nat.Defs
import Overlay.Archive
import Overlay.Origin
import Overlay.Proofs.Trimming
import Overlay.Proofs.Utf8

/-!
# Packing files

What a plain archiver writes: for each file a header without a mark and the data, filled up to
whole blocks. Reading it gives the files back.
-/

namespace Overlay

/-- Folding an array of bytes folds their list. -/
theorem foldl_bytes {α : Type} (f : α → UInt8 → α) (init : α) (bytes : ByteArray) :
    bytes.foldl f init = bytes.data.toList.foldl f init := by
  have hloop : ∀ k j a, bytes.size - j = k →
      ByteArray.foldlM.loop (m := Id) f bytes bytes.size (Nat.le_refl _) k j a =
        (bytes.data.toList.drop j).foldl f a := by
    intro k
    induction k with
    | zero =>
      intro j a hk
      rw [ByteArray.foldlM.loop, dif_neg (by omega), List.drop_eq_nil_of_le]
      · rfl
      · rw [Array.length_toList, ByteArray.size_data]
        omega
    | succ k ih =>
      intro j a hk
      have hj : j < bytes.data.toList.length := by
        rw [Array.length_toList, ByteArray.size_data]
        omega
      rw [ByteArray.foldlM.loop, dif_pos (by omega), List.drop_eq_getElem_cons hj]
      exact ih (j + 1) (f a bytes[j]) (by omega)
  have hall := hloop bytes.size 0 init rfl
  unfold ByteArray.foldl ByteArray.foldlM
  rw [dif_pos (Nat.le_refl _)]
  exact hall

namespace Tar

/-- So many null bytes. -/
def nulls (count : Nat) : List UInt8 := List.replicate count 0

/-- The byte of a digit. -/
def digitByte (d : Nat) : UInt8 := UInt8.ofNat (0x30 + d)

/-- The last octal digits of a number. -/
def octalDigits : Nat → Nat → List UInt8
  | 0, _ => []
  | width + 1, n => octalDigits width (n / 8) ++ [digitByte (n % 8)]

/-- A header without a mark, with given bytes for the checksum field. -/
def headerWith (name : List UInt8) (size : Nat) (checksum : List UInt8) : List UInt8 :=
  name ++ nulls (124 - name.length) ++ (octalDigits 11 size ++ [0]) ++ nulls 12 ++ checksum ++
    nulls 356

/-- The header of a file. -/
def header (name : List UInt8) (size : Nat) : List UInt8 :=
  headerWith name size (octalDigits 7 (sum ⟨(headerWith name size (nulls 8)).toArray⟩) ++ [0])

/-- A file as it stands in an archive. -/
def packed (name data : List UInt8) : List UInt8 :=
  header name data.length ++ data ++ nulls (padded data.length - data.length)

/-- Files as they stand in an archive. -/
def pack (files : List (List UInt8 × List UInt8)) : List UInt8 :=
  files.flatMap fun f => packed f.1 f.2

/-- What a plain header has room for. -/
structure Fits (name data : List UInt8) : Prop where
  /-- The name is not too long. -/
  short : name.length ≤ 100
  /-- The name has no null byte. -/
  nullless : 0 ∉ name
  /-- The size has at most eleven octal digits. -/
  small : data.length < 8 ^ 11

@[simp] theorem length_nulls (count : Nat) : (nulls count).length = count := List.length_replicate

@[simp] theorem length_octalDigits (width n : Nat) : (octalDigits width n).length = width := by
  induction width generalizing n with
  | zero => rfl
  | succ width ih => rw [octalDigits, List.length_append, ih, List.length_singleton]

/-- An octal digit is the byte of its character. -/
theorem exists_of_mem_octalDigits {width n : Nat} {b : UInt8} (h : b ∈ octalDigits width n) :
    ∃ d < 8, b = digitByte d := by
  induction width generalizing n with
  | zero => cases h
  | succ width ih =>
    rw [octalDigits, List.mem_append, List.mem_singleton] at h
    rcases h with h | rfl
    · exact ih h
    · exact ⟨n % 8, Nat.mod_lt n (by decide), rfl⟩

theorem slice_toArray (bytes : List UInt8) (start count : Nat) :
    slice ⟨bytes.toArray⟩ start count = ⟨((bytes.drop start).take count).toArray⟩ := by
  apply ByteArray.ext
  rw [slice, ByteArray.data_extract, List.extract_toArray, List.extract_eq_take_drop]
  congr 1
  change (bytes.drop start).take (min (start + count) bytes.length - start) = _
  rw [List.take_eq_take_iff, List.length_drop]
  omega

/-- A part of a row of bytes is found behind those in front of it. -/
theorem slice_between {before part behind : List UInt8} {start count : Nat}
    (hs : start = before.length) (hc : count = part.length) :
    slice ⟨(before ++ part ++ behind).toArray⟩ start count = ⟨part.toArray⟩ := by
  rw [slice_toArray, List.append_assoc, hs, List.drop_left, hc, List.take_left]

/-- Only the part in front of the first null byte counts. -/
theorem untilNull_append {part : List UInt8} (h : 0 ∉ part) (count : Nat) :
    untilNull ⟨(part ++ nulls count).toArray⟩ = ⟨part.toArray⟩ := by
  have hpart : part.findIdx? (· == 0) = none := by
    rw [List.findIdx?_eq_none_iff]
    intro b hb
    rw [beq_eq_false_iff_ne]
    rintro rfl
    exact h hb
  unfold untilNull
  rw [List.findIdx?_append, hpart]
  cases count with
  | zero => simp [nulls]
  | succ count =>
    have hsize : part.length ≤ (part ++ nulls (count + 1)).length := by simp
    simp only [nulls, List.replicate_succ, List.findIdx?_cons, beq_self_eq_true, if_true,
      Option.map_some, Option.none_or, Nat.zero_add]
    apply ByteArray.ext
    rw [ByteArray.data_extract, List.extract_toArray, List.extract_eq_take_drop, List.drop_zero,
      Nat.sub_zero, List.take_left]

/-- The character of a byte below the first continuation byte. -/
def charOf (b : UInt8) : Char := Char.ofNat b.toNat

/-- Bytes below the first continuation byte are read as their characters. -/
theorem decode?_ascii {bytes : List UInt8} (h : ∀ b ∈ bytes, b < 0x80) :
    Text.Utf8.decode? ⟨bytes.toArray⟩ = some (String.ofList (bytes.map charOf)) := by
  have hunits : Text.Utf8.unitsFrom none bytes = (bytes.map charOf).map some := by
    induction bytes with
    | nil => rfl
    | cons b bytes ih =>
      have hb : b < 0x80 := h b List.mem_cons_self
      have hlead : Text.Utf8.lead b = .whole (charOf b) := by
        rw [Text.Utf8.lead, if_pos hb]
        rfl
      rw [Text.Utf8.unitsFrom_whole hlead, ih fun b' hb' => h b' (List.mem_cons_of_mem b hb'),
        List.map_cons, List.map_cons]
  have hall : ((bytes.map charOf).map some).mapM id = some (bytes.map charOf) :=
    mapM_eq_some_iff.2 (List.map_id _)
  rw [Text.Utf8.decode?, Text.Utf8.units, toList_bytes, hunits, hall]
  rfl

/-- What an octal digit is read as. -/
theorem digitByte_spec : ∀ d < 8, digitByte d < 0x80 ∧ digitByte d ≠ 0 ∧
    digit? 8 (charOf (digitByte d)) = some d ∧ Text.isBlank (charOf (digitByte d)) = false ∧
    charOf (digitByte d) ≠ '+' := by
  decide

/-- Octal digits are read as the number that they write. -/
theorem digits?_octalDigits (width n : Nat) :
    digits? 8 ((octalDigits width n).map charOf) = some (n % 8 ^ width) := by
  induction width generalizing n with
  | zero => rw [Nat.pow_zero, Nat.mod_one]; rfl
  | succ width ih =>
    obtain ⟨-, -, hdigit, -⟩ := digitByte_spec (n % 8) (Nat.mod_lt n (by decide))
    have hn : 8 * (n / 8 % 8 ^ width) + n % 8 = n % 8 ^ (width + 1) := by
      rw [Nat.pow_succ', Nat.mod_mul]
      omega
    have hfront := ih (n / 8)
    rw [digits?] at hfront
    rw [octalDigits, List.map_append, digits?, List.foldlM_append, hfront]
    simp [hdigit, hn]

/-- An octal field is read as the number that it holds. -/
theorem octal?_octalDigits {width n : Nat} (hw : width ≠ 0) (hn : n < 8 ^ width)
    (hlimit : n < wordLimit) : octal? ⟨(octalDigits width n ++ [0]).toArray⟩ = some n := by
  have hdigits : ∀ b ∈ octalDigits width n, b < 0x80 ∧ b ≠ 0 ∧
      Text.isBlank (charOf b) = false ∧ charOf b ≠ '+' := by
    intro b hb
    obtain ⟨d, hd, rfl⟩ := exists_of_mem_octalDigits hb
    obtain ⟨hascii, hzero, -, hblank, hplus⟩ := digitByte_spec d hd
    exact ⟨hascii, hzero, hblank, hplus⟩
  have hnull : 0 ∉ octalDigits width n := fun h => (hdigits 0 h).2.1 rfl
  have htrim : Text.trim ((octalDigits width n).map charOf) = (octalDigits width n).map charOf := by
    apply Text.trim_eq_self
    intro c hc
    obtain ⟨b, hb, rfl⟩ := List.mem_map.1 hc
    exact (hdigits b hb).2.2.1
  have hhead : ((octalDigits width n).map charOf).head? ≠ some '+' := by
    intro he
    obtain ⟨b, hb, hplus⟩ := List.mem_map.1 (List.mem_of_mem_head? he)
    exact (hdigits b hb).2.2.2 hplus
  have hne : (octalDigits width n).map charOf ≠ [] := by
    intro he
    have hlength := congrArg List.length he
    rw [List.length_map, length_octalDigits] at hlength
    exact hw hlength
  have huntil : untilNull ⟨(octalDigits width n ++ [0]).toArray⟩ =
      ⟨(octalDigits width n).toArray⟩ := untilNull_append hnull 1
  rw [octal?, huntil, decode?_ascii fun b hb => (hdigits b hb).1]
  simp only [Option.bind_eq_bind, Option.bind_some, String.toList_ofList, htrim]
  rw [number?]
  rw [if_neg hhead, if_neg hne, digits?_octalDigits, Nat.mod_eq_of_lt hn, Option.filter_some,
    if_pos (by simpa using hlimit)]

variable {name data : List UInt8}

/-- A header fills one block. -/
theorem length_headerWith {size : Nat} {checksum : List UInt8} (h : name.length ≤ 124)
    (hc : checksum.length = 8) : (headerWith name size checksum).length = 512 := by
  simp only [headerWith, List.length_append, length_nulls, length_octalDigits, hc,
    List.length_singleton]
  omega

/-- The checksum field does not count for the checksum. -/
theorem sum_headerWith (size : Nat) {checksum other : List UInt8} (h : name.length ≤ 124)
    (hc : checksum.length = 8) (ho : other.length = 8) :
    sum ⟨(headerWith name size checksum).toArray⟩ = sum ⟨(headerWith name size other).toArray⟩ := by
  have hfront : ∀ checksum : List UInt8, slice ⟨(headerWith name size checksum).toArray⟩ 0 148 =
      ⟨(name ++ nulls (124 - name.length) ++ (octalDigits 11 size ++ [0]) ++ nulls 12).toArray⟩ := by
    intro checksum
    have := @slice_between [] (name ++ nulls (124 - name.length) ++ (octalDigits 11 size ++ [0]) ++
      nulls 12) (checksum ++ nulls 356) 0 148 rfl (by simp; omega)
    simpa [headerWith] using this
  have hback : ∀ checksum : List UInt8, checksum.length = 8 →
      slice ⟨(headerWith name size checksum).toArray⟩ 156 356 = ⟨(nulls 356).toArray⟩ := by
    intro checksum hc
    have := @slice_between (name ++ nulls (124 - name.length) ++ (octalDigits 11 size ++ [0]) ++
      nulls 12 ++ checksum) (nulls 356) [] 156 356 (by simp; omega) (by simp)
    simpa [headerWith] using this
  rw [sum, sum, hfront, hfront, hback checksum hc, hback other ho]

/-- The sum of a header has at most six octal digits. -/
theorem sum_lt (bytes : ByteArray) : sum bytes < 8 ^ 6 := by
  have hfold : ∀ (part : List UInt8) (init : Nat),
      part.foldl (fun n b => n + b.toNat) init ≤ init + 255 * part.length := by
    intro part
    induction part with
    | nil => intro init; simp
    | cons b part ih =>
      intro init
      have hb : b.toNat ≤ 255 := Nat.le_of_lt_succ b.toNat_lt
      have := ih (init + b.toNat)
      rw [List.foldl_cons, List.length_cons]
      omega
  have hlength : ∀ start count, (slice bytes start count).data.toList.length ≤ count := by
    intro start count
    rw [Array.length_toList, ByteArray.size_data, slice, ByteArray.size_extract]
    omega
  have hfront := hfold (slice bytes 0 148).data.toList (8 * 32)
  have hback := hfold (slice bytes 156 356).data.toList
    ((slice bytes 0 148).data.toList.foldl (fun n b => n + b.toNat) (8 * 32))
  have h148 := hlength 0 148
  have h356 := hlength 156 356
  rw [sum, foldl_bytes, foldl_bytes]
  omega

/-- What a reader finds in the header of a file. -/
structure Reads (header : ByteArray) (name : List UInt8) (size : Nat) : Prop where
  /-- The header has no mark. -/
  unmarked : layout? header = none
  /-- The type is that of a regular file. -/
  type_eq : typeMark header = 0
  /-- The header is not a block of zeros. -/
  nonzero : isZero header = false
  /-- The checksum is right. -/
  fits : sumFits header = true
  /-- The size is that of the data. -/
  size_eq : size? (slice header 124 12) = some size
  /-- The name is that of the file. -/
  name_eq : headerName header = ⟨name.toArray⟩

namespace Reads

variable {header : ByteArray} {size : Nat}

theorem sizeOf? (h : Reads header name size) : sizeOf? header {} = some size := by
  simp only [Tar.sizeOf?, h.size_eq, Option.map_some, Option.bind_none, Option.getD_none]

theorem nameOf (h : Reads header name size) : nameOf header {} = ⟨name.toArray⟩ := by
  simp only [Tar.nameOf, Option.bind_none, Option.getD_none, h.name_eq]

theorem role (h : Reads header name size) (data : Option ByteArray) :
    role header data {} = .own := if_pos h.unmarked

theorem behindMember? (h : Reads header name size) (stream : Delivery) (p next : Nat) :
    behindMember? header stream p size next = some next := by
  have hne : typeMark header ≠ 0x53 := by
    rw [h.type_eq]
    decide
  exact if_pos hne

end Reads

theorem nulls_add (m n : Nat) : nulls (m + n) = nulls m ++ nulls n :=
  List.replicate_append_replicate.symm

section

variable {size : Nat} {checksum : List UInt8}

theorem slice_name (h : name.length ≤ 100) :
    slice ⟨(headerWith name size checksum).toArray⟩ 0 100 =
      ⟨(name ++ nulls (100 - name.length)).toArray⟩ := by
  have hsplit : nulls (124 - name.length) = nulls (100 - name.length) ++ nulls 24 := by
    rw [← nulls_add]
    congr 1
    omega
  have hheader : headerWith name size checksum = [] ++ (name ++ nulls (100 - name.length)) ++
      (nulls 24 ++ (octalDigits 11 size ++ [0]) ++ nulls 12 ++ checksum ++ nulls 356) := by
    simp only [headerWith, hsplit, List.append_assoc, List.nil_append]
  rw [hheader]
  exact slice_between rfl (by simp; omega)

theorem slice_size (h : name.length ≤ 124) :
    slice ⟨(headerWith name size checksum).toArray⟩ 124 12 =
      ⟨(octalDigits 11 size ++ [0]).toArray⟩ := by
  have hheader : headerWith name size checksum = (name ++ nulls (124 - name.length)) ++
      (octalDigits 11 size ++ [0]) ++ (nulls 12 ++ checksum ++ nulls 356) := by
    simp only [headerWith, List.append_assoc]
  rw [hheader]
  exact slice_between (by simp; omega) (by simp)

theorem slice_checksum (h : name.length ≤ 124) (hc : checksum.length = 8) :
    slice ⟨(headerWith name size checksum).toArray⟩ 148 8 = ⟨checksum.toArray⟩ :=
  slice_between (by simp; omega) hc.symm

theorem slice_behind_checksum (h : name.length ≤ 124) (hc : checksum.length = 8) {start count : Nat}
    (hs : 156 ≤ start) (hcount : start + count ≤ 512) :
    slice ⟨(headerWith name size checksum).toArray⟩ start count = ⟨(nulls count).toArray⟩ := by
  have hsplit : nulls 356 = nulls (start - 156) ++ nulls count ++ nulls (512 - start - count) := by
    rw [← nulls_add, ← nulls_add]
    congr 1
    omega
  have hheader : headerWith name size checksum =
      (name ++ nulls (124 - name.length) ++ (octalDigits 11 size ++ [0]) ++ nulls 12 ++ checksum ++
        nulls (start - 156)) ++ nulls count ++ nulls (512 - start - count) := by
    simp only [headerWith, hsplit, List.append_assoc]
  rw [hheader]
  exact slice_between (by simp; omega) (by simp)

end

/-- The digits of a number begin with a digit. -/
theorem exists_head_octalDigits {width : Nat} (hw : width ≠ 0) (n : Nat) :
    ∃ d < 8, ∃ rest, octalDigits width n = digitByte d :: rest := by
  cases h : octalDigits width n with
  | nil =>
    have hlength := length_octalDigits width n
    rw [h] at hlength
    exact absurd hlength.symm hw
  | cons b rest =>
    obtain ⟨d, hd, rfl⟩ := exists_of_mem_octalDigits (h ▸ List.mem_cons_self)
    exact ⟨d, hd, rest, rfl⟩

/-- A header is read as that of its file. -/
theorem Fits.reads (h : Fits name data) :
    Reads ⟨(header name data.length).toArray⟩ name data.length := by
  have hname : name.length ≤ 124 := Nat.le_trans h.short (by decide)
  obtain ⟨checksum, hchecksum⟩ : ∃ checksum, checksum =
    octalDigits 7 (sum ⟨(headerWith name data.length (nulls 8)).toArray⟩) ++ [0] := ⟨_, rfl⟩
  have hlength : checksum.length = 8 := by simp [hchecksum]
  have hheader : header name data.length = headerWith name data.length checksum := by
    rw [header, hchecksum]
  have hmark : layout? ⟨(header name data.length).toArray⟩ = none := by
    rw [layout?, hheader, slice_behind_checksum hname hlength (by decide) (by decide)]
    decide
  obtain ⟨d, hd, rest, hdigits⟩ := exists_head_octalDigits (show 11 ≠ 0 by decide)
    data.length
  obtain ⟨hascii, hzero, -⟩ := digitByte_spec d hd
  rw [hheader] at hmark ⊢
  refine ⟨hmark, ?_, ?_, ?_, ?_, ?_⟩
  case refine_1 =>
    have hfront : (name ++ nulls (124 - name.length) ++ (octalDigits 11 data.length ++ [0]) ++
        nulls 12 ++ checksum).length = 156 := by
      simp only [List.length_append, length_nulls, length_octalDigits, hlength,
        List.length_singleton]
      omega
    have hget : (headerWith name data.length checksum)[156]? = some 0 := by
      rw [headerWith, List.getElem?_append_right (by omega), hfront]
      rfl
    rw [typeMark, Array.getD_eq_getD_getElem?, List.getElem?_toArray, hget, Option.getD_some]
  case refine_2 =>
    have hmem : digitByte d ∈ headerWith name data.length checksum := by
      simp [headerWith, hdigits]
    rw [isZero, List.all_toArray, List.all_eq_false]
    exact ⟨_, hmem, by simpa using hzero⟩
  case refine_3 =>
    rw [sumFits, slice_checksum hname hlength, hchecksum,
      octal?_octalDigits (by decide) (Nat.lt_trans (sum_lt _) (by decide))
        (Nat.lt_trans (sum_lt _) (by decide)), ← hchecksum,
      sum_headerWith data.length hname hlength (length_nulls 8), beq_self_eq_true]
  case refine_4 =>
    have hget : (octalDigits 11 data.length ++ [0]).toArray[0]? = some (digitByte d) := by
      rw [hdigits]
      rfl
    rw [slice_size hname, size?]
    dsimp only
    rw [hget]
    dsimp only
    rw [if_neg (by simpa using hascii), octal?_octalDigits (by decide) h.small
      (Nat.lt_trans h.small (by decide))]
  case refine_5 =>
    rw [headerName, hmark, slice_name h.short, untilNull_append h.nullless]
    simp

theorem size_le_padded (size : Nat) : size ≤ padded size := by
  rw [padded, blockSize]
  omega

theorem slice_eq {bytes : ByteArray} {start : Nat} {part behind : List UInt8}
    (h : bytes.data.toList.drop start = part ++ behind) :
    slice bytes start part.length = ⟨part.toArray⟩ := by
  have heta : bytes = ⟨bytes.data.toList.toArray⟩ := rfl
  rw [heta, slice_toArray]
  change ByteArray.mk ((bytes.data.toList.drop start).take part.length).toArray = _
  rw [h, List.take_left]

/-- The member that a packed file is read as. -/
def memberOf (name data : List UInt8) : Member := ⟨⟨name.toArray⟩, true, some ⟨data.toArray⟩⟩

/-- Where a packed file stands, its member is found, and the next file behind it. -/
theorem Fits.itemAt (h : Fits name data) {stream : Delivery} (hlimit : stream.bytes.size < wordLimit)
    {p : Nat} {behind : List UInt8}
    (hat : stream.bytes.data.toList.drop p = packed name data ++ behind) :
    itemAt stream p {} = .member (memberOf name data) (p + (packed name data).length) ∧
      stream.bytes.data.toList.drop (p + (packed name data).length) = behind := by
  have hreads := h.reads
  have hheader : (header name data.length).length = blockSize :=
    length_headerWith (Nat.le_trans h.short (by decide)) (by simp)
  have hpad := size_le_padded data.length
  have hlength : (packed name data).length = blockSize + padded data.length := by
    simp only [packed, List.length_append, hheader, length_nulls]
    omega
  have hnext : stream.bytes.data.toList.drop (p + (packed name data).length) = behind := by
    rw [← List.drop_drop, hat, List.drop_left]
  have hbound : p + (blockSize + padded data.length) ≤ stream.bytes.size := by
    have := congrArg List.length hat
    rw [List.length_drop, List.length_append, hlength, Array.length_toList,
      ByteArray.size_data] at this
    have hblock : 0 < blockSize := by decide
    omega
  rw [packed, List.append_assoc, List.append_assoc] at hat
  have hdata : stream.bytes.data.toList.drop (p + blockSize) =
      data ++ (nulls (padded data.length - data.length) ++ behind) := by
    rw [← List.drop_drop, hat, ← hheader, List.drop_left]
  have hslice : slice stream.bytes p blockSize = ⟨(header name data.length).toArray⟩ :=
    hheader ▸ slice_eq hat
  have hbytes : dataAt? stream (p + blockSize) data.length = some ⟨data.toArray⟩ := by
    rw [dataAt?, if_pos (Or.inl (by omega)), slice_eq hdata]
  have hblock : 0 < blockSize := by decide
  have hsmall : data.length + (blockSize - 1) < wordLimit :=
    Nat.lt_trans (Nat.add_lt_add_right h.small _) (by decide)
  refine ⟨?_, hnext⟩
  unfold Tar.itemAt
  simp only [hslice, hreads.nonzero, hreads.fits, hreads.sizeOf?, hbytes, hreads.role,
    hreads.behindMember?, hreads.nameOf, hreads.type_eq]
  rw [if_neg (by omega), if_neg (by omega), if_neg (by omega), if_neg Bool.false_ne_true,
    if_neg (by decide), if_neg (by omega), hlength, Nat.add_assoc]
  rfl

/-- Reading packed files from a position on gives the files back. -/
theorem membersFrom_pack {stream : Delivery} (hi : stream.intact = true)
    (hlimit : stream.bytes.size < wordLimit) {files : List (List UInt8 × List UInt8)}
    (hfits : ∀ f ∈ files, Fits f.1 f.2) {fuel p : Nat} (hfuel : files.length < fuel)
    (hat : stream.bytes.data.toList.drop p = pack files) (hp : p ≤ stream.bytes.size) :
    membersFrom stream fuel p {} = ⟨files.map fun f => memberOf f.1 f.2, true⟩ := by
  have hsize : stream.bytes.size = p + (pack files).length := by
    have := congrArg List.length hat
    rw [List.length_drop, Array.length_toList, ByteArray.size_data] at this
    omega
  induction files generalizing fuel p with
  | nil =>
    obtain ⟨fuel, rfl⟩ := Nat.exists_eq_succ_of_ne_zero (Nat.ne_of_gt hfuel)
    have hend : stream.bytes.size = p := hsize
    have hitem : itemAt stream p {} = .ends true := by
      unfold itemAt
      simp only [hend, Nat.lt_irrefl, if_false, if_true, hi]
      rfl
    rw [membersFrom, hitem]
    rfl
  | cons f files ih =>
    obtain ⟨fuel, rfl⟩ := Nat.exists_eq_succ_of_ne_zero (Nat.ne_of_gt (Nat.zero_lt_of_lt hfuel))
    rw [pack, List.flatMap_cons] at hat hsize
    rw [List.length_append] at hsize
    obtain ⟨hitem, hnext⟩ := (hfits f List.mem_cons_self).itemAt hlimit hat
    have hrest := ih (fun g hg => hfits g (List.mem_cons_of_mem _ hg))
      (Nat.lt_of_succ_lt_succ hfuel) hnext (by omega) (by rw [hsize, Nat.add_assoc]; rfl)
    simp only [membersFrom, hitem, hrest]
    rfl

/-- Each packed file takes a block at least. -/
theorem length_mul_le_pack {files : List (List UInt8 × List UInt8)}
    (hfits : ∀ f ∈ files, Fits f.1 f.2) : files.length * blockSize ≤ (pack files).length := by
  induction files with
  | nil => exact Nat.zero_le _
  | cons f files ih =>
    have hrest := ih fun g hg => hfits g (List.mem_cons_of_mem _ hg)
    have hheader : (header f.1 f.2.length).length = blockSize :=
      length_headerWith (Nat.le_trans (hfits f List.mem_cons_self).short (by decide)) (by simp)
    have hlength : (pack (f :: files)).length = (packed f.1 f.2).length + (pack files).length := by
      rw [pack, List.flatMap_cons, List.length_append]
      rfl
    rw [hlength, packed, List.length_append, List.length_append, hheader, List.length_cons,
      Nat.succ_mul]
    omega

/-- Reading packed files gives the files back. -/
theorem read_pack {files : List (List UInt8 × List UInt8)} (hfits : ∀ f ∈ files, Fits f.1 f.2)
    (hlimit : (pack files).length < wordLimit) {bytes : ByteArray}
    (hbytes : bytes = ⟨(pack files).toArray⟩) (hmark : Gzip.isMarked bytes = false) :
    read (Delivery.ofFile bytes) = ⟨files.map fun f => memberOf f.1 f.2, true⟩ := by
  have hfew : files.length ≤ (pack files).length / blockSize :=
    (Nat.le_div_iff_mul_le (by decide)).2 (length_mul_le_pack hfits)
  have hsize : bytes.size = (pack files).length := by
    rw [hbytes]
    rfl
  have hat : bytes.data.toList.drop 0 = pack files := by rw [hbytes, List.drop_zero]
  rw [Delivery.ofFile, hmark, if_neg Bool.false_ne_true, read]
  exact membersFrom_pack rfl (hsize ▸ hlimit) hfits (by dsimp only; rw [hsize]; omega) hat (Nat.zero_le _)

end Tar

/-- The contents of an archive of packed files. -/
theorem Archive.contents_of_packed {t : FileTree} {p : Path}
    {files : List (List UInt8 × List UInt8)} (hfits : ∀ f ∈ files, Tar.Fits f.1 f.2)
    (hlimit : (Tar.pack files).length < Tar.wordLimit) {bytes : ByteArray}
    (hread : t.read p = .ok bytes) (hbytes : bytes = ⟨(Tar.pack files).toArray⟩)
    (hmark : Gzip.isMarked bytes = false) :
    contents t p = .ok ⟨files.map fun f => Tar.memberOf f.1 f.2, true⟩ := by
  rw [contents, hread, ← Tar.read_pack hfits hlimit hbytes hmark]
  rfl

/-- The entries of an archive of packed files. -/
theorem Archive.entriesOf_packed (files : List (List UInt8 × List UInt8)) :
    entriesOf true (files.map fun f => Tar.memberOf f.1 f.2) =
      .ok (files.map fun f => (memberName (Tar.memberOf f.1 f.2), ⟨f.2.toArray⟩)) := by
  induction files with
  | nil => rfl
  | cons f files ih =>
    rw [List.map_cons, entriesOf, ih]
    rfl

/-- The view of an archive of packed files. -/
theorem ArchiveIndex.ofPath_of_packed {t : FileTree} {p : Path}
    {files : List (List UInt8 × List UInt8)} (hfits : ∀ f ∈ files, Tar.Fits f.1 f.2)
    (hlimit : (Tar.pack files).length < Tar.wordLimit) {bytes : ByteArray}
    (hread : t.read p = .ok bytes) (hbytes : bytes = ⟨(Tar.pack files).toArray⟩)
    (hmark : Gzip.isMarked bytes = false) :
    ofPath t p =
      .ok ⟨p, files.map fun f => (Archive.memberName (Tar.memberOf f.1 f.2), ⟨f.2.toArray⟩)⟩ :=
  ofPath_eq_ok_iff.2 ⟨_, _, Archive.contents_of_packed hfits hlimit hread hbytes hmark,
    Archive.entriesOf_packed files, rfl⟩

namespace OneArchive

/-- A packed file: its path and content. -/
abbrev PackedFile := List UInt8 × List UInt8

/-- The archive. -/
def archive : Origin := ⟨⟨"/x.tar"⟩, .archive⟩

/-- The archive's file, if it packs some files. -/
def bytesOf (files : List PackedFile) : ByteArray := ⟨(Tar.pack files).toArray⟩

/-- The tree in which the archive packs some files. -/
def treeOf (files : List PackedFile) : FileTree := ⟨[(["x.tar"], .file (bytesOf files))], []⟩

/-- The archive of some packed files that all fit. -/
structure Fitting (files : List PackedFile) : Prop where
  /-- Each file fits. -/
  fits : ∀ f ∈ files, Tar.Fits f.1 f.2
  /-- The archive is not too large. -/
  limit : (Tar.pack files).length < Tar.wordLimit
  /-- It does not look like a compressed one. -/
  mark : Gzip.isMarked (bytesOf files) = false
  /-- It can be registered. -/
  origin : Origin.ofPath (treeOf files) archive.location = .ok archive
  /-- It is no directory. -/
  file : (treeOf files).isDirectory archive.location = false

/-- The view of the archive, if it packs some files. -/
def viewOf (files : List PackedFile) : ArchiveIndex :=
  ⟨archive.location,
    files.map fun f => (Archive.memberName (Tar.memberOf f.1 f.2), ⟨f.2.toArray⟩)⟩

theorem Fitting.ofPath {files : List PackedFile} (h : Fitting files) :
    ArchiveIndex.ofPath (treeOf files) archive.location = .ok (viewOf files) :=
  ArchiveIndex.ofPath_of_packed h.fits h.limit rfl rfl h.mark

theorem realPath_archive (files : List PackedFile) :
    (treeOf files).realPath archive.location = .ok archive.location := by with_unfolding_all rfl

/-- Files that fit can be packed, if the archive is not too large and does not look like a
compressed one. -/
theorem fitting_of_fits {files : List PackedFile} (hfits : ∀ f ∈ files, Tar.Fits f.1 f.2)
    (hlimit : (Tar.pack files).length < Tar.wordLimit)
    (hmark : Gzip.isMarked (bytesOf files) = false) : Fitting files where
  fits := hfits
  limit := hlimit
  mark := hmark
  origin := by
    have hfile : (treeOf files).isDirectory archive.location = false := rfl
    rw [Origin.ofPath, realPath_archive]
    dsimp only
    rw [hfile]
    rfl
  file := rfl

end OneArchive

end Overlay
