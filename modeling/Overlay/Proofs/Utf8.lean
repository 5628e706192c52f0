import Mathlib.Algebra.Group.Nat.Defs
import Overlay.Text.Utf8

/-!
# Strict decoding

Strict decoding accepts the encodings of texts and nothing else. A character is encoded in one byte
or in an opening byte and a tail, which holds six bits of the character's number in each of its
bytes. A tail is read to its end, and nothing but a tail is; the range that an opening byte sets for
the byte behind it leaves exactly the numbers of characters that no shorter encoding has.
-/

namespace Overlay

/-- The bytes of an array in a list. -/
theorem toList_bytes (bytes : ByteArray) : bytes.toList = bytes.data.toList := by
  have hloop : ∀ k i r, bytes.size - i = k →
      ByteArray.toList.loop bytes i r = r.reverse ++ bytes.data.toList.drop i := by
    intro k
    induction k with
    | zero =>
      intro i r hk
      rw [ByteArray.toList.loop, if_neg (by omega), List.drop_eq_nil_of_le, List.append_nil]
      rw [Array.length_toList, ByteArray.size_data]
      omega
    | succ k ih =>
      intro i r hk
      have hi : i < bytes.data.toList.length := by
        rw [Array.length_toList, ByteArray.size_data]
        omega
      have hget : bytes.get! i = bytes.data.toList[i] := by
        rw [Array.getElem_toList]
        exact getElem!_pos bytes.data i (by simpa using hi)
      rw [ByteArray.toList.loop, if_pos (by omega), ih _ _ (by omega), List.drop_eq_getElem_cons hi,
        hget]
      simp
  exact hloop _ 0 [] rfl

/-- Going over a list succeeds with what every single step gives. -/
theorem mapM_eq_some_iff {α β : Type} {f : α → Option β} {xs : List α} {ys : List β} :
    xs.mapM f = some ys ↔ xs.map f = ys.map some := by
  induction xs generalizing ys with
  | nil => cases ys <;> simp
  | cons x xs ih =>
    cases h : f x with
    | none => cases ys <;> simp [h]
    | some y =>
      cases ys with
      | nil => simp [h, Option.bind_eq_some_iff]
      | cons z zs =>
        simp only [List.mapM_cons, List.map_cons, h, Option.bind_eq_bind, Option.bind_some,
          Option.bind_eq_some_iff, Option.pure_def, Option.some.injEq, List.cons.injEq, ih]
        constructor
        · rintro ⟨_, hxs, rfl, rfl⟩
          exact ⟨rfl, hxs⟩
        · rintro ⟨rfl, hxs⟩
          exact ⟨zs, hxs, rfl, rfl⟩

namespace Text.Utf8

variable {b low high : UInt8} {bs : List UInt8} {c : Char} {us : List (Option Char)} {p : Pending}
  {k n v : Nat}

/-- The ranges of a byte at the start of a character, as numbers. -/
theorem lead_eq (b : UInt8) : lead b =
    if b.toNat < 0x80 then .whole (Char.ofNat b.toNat)
    else if b.toNat < 0xC2 then .invalid
    else if b.toNat < 0xE0 then .opens ⟨1, 0x80, 0xBF, b.toNat - 0xC0⟩
    else if b.toNat < 0xF0 then
      .opens ⟨2, if b.toNat = 0xE0 then 0xA0 else 0x80, if b.toNat = 0xED then 0x9F else 0xBF,
        b.toNat - 0xE0⟩
    else if b.toNat < 0xF5 then
      .opens ⟨3, if b.toNat = 0xF0 then 0x90 else 0x80, if b.toNat = 0xF4 then 0x8F else 0xBF,
        b.toNat - 0xF0⟩
    else .invalid := by
  simp [lead, UInt8.lt_iff_toNat_lt, ← UInt8.toNat_inj]

/-- The byte of a number below 256. -/
theorem toNat_byte (h : n < 256) : (UInt8.ofNat n).toNat = n := UInt8.toNat_ofNat_of_lt' h

theorem unitsFrom_whole (h : lead b = .whole c) (bs : List UInt8) :
    unitsFrom none (b :: bs) = some c :: unitsFrom none bs := by
  simp [unitsFrom, take, start, h]

theorem unitsFrom_opens (h : lead b = .opens p) (bs : List UInt8) :
    unitsFrom none (b :: bs) = unitsFrom (some p) bs := by
  simp [unitsFrom, take, start, h]

/-- A byte continues an open character if it lies in the range. -/
def Pending.Admits (p : Pending) (b : UInt8) : Prop :=
  p.low.toNat ≤ b.toNat ∧ b.toNat ≤ p.high.toNat

theorem take_of_admits (h : p.Admits b) : take (some p) b =
    if p.owed ≤ 1 then ([some (Char.ofNat (p.bits * 64 + (b.toNat - 0x80)))], none)
    else ([], some ⟨p.owed - 1, 0x80, 0xBF, p.bits * 64 + (b.toNat - 0x80)⟩) := by
  simp [take, UInt8.le_iff_toNat_le, h.1, h.2]

/-- An open character is only read to its end through bytes that continue it. -/
theorem exists_admits_of_unitsFrom (h : unitsFrom (some p) bs = some c :: us) :
    ∃ b rest, bs = b :: rest ∧ p.Admits b := by
  cases bs with
  | nil => cases h
  | cons b rest =>
    refine ⟨b, rest, rfl, ?_⟩
    cases hrange : p.low ≤ b && b ≤ p.high with
    | false => simp [unitsFrom, take, hrange] at h
    | true =>
      rw [Bool.and_eq_true, decide_eq_true_eq, decide_eq_true_eq] at hrange
      exact ⟨UInt8.le_iff_toNat_le.1 hrange.1, UInt8.le_iff_toNat_le.1 hrange.2⟩

/-- The range of the second byte makes no difference to what a byte in it means. -/
theorem unitsFrom_congr {q : Pending} (h : p.Admits b) (h' : q.Admits b)
    (howed : p.owed = q.owed) (hbits : p.bits = q.bits) (bs : List UInt8) :
    unitsFrom (some p) (b :: bs) = unitsFrom (some q) (b :: bs) := by
  rw [unitsFrom, unitsFrom, take_of_admits h, take_of_admits h', howed, hbits]

/-- A character that is open for any bytes that continue one. -/
def wide (k bits : Nat) : Pending := ⟨k, 0x80, 0xBF, bits⟩

theorem admits_wide_iff {bits : Nat} :
    (wide k bits).Admits b ↔ 0x80 ≤ b.toNat ∧ b.toNat ≤ 0xBF := Iff.rfl

/-- The last `k` bytes of a longer character with a number: six bits each. -/
def tail (v : Nat) : Nat → List UInt8
  | 0 => []
  | k + 1 => UInt8.ofNat (v / 64 ^ k % 64 + 0x80) :: tail v k

/-- A tail is read to its end. -/
theorem unitsFrom_tail (v k : Nat) (bs : List UInt8) :
    unitsFrom (some (wide (k + 1) (v / 64 ^ (k + 1)))) (tail v (k + 1) ++ bs) =
      some (Char.ofNat v) :: unitsFrom none bs := by
  induction k with
  | zero =>
    have hb := toNat_byte (n := v % 64 + 0x80) (by omega)
    have hbits : v / 64 * 64 + v % 64 = v := by omega
    simp only [tail, Nat.pow_zero, Nat.div_one, List.cons_append, List.nil_append, unitsFrom]
    rw [take_of_admits (by rw [admits_wide_iff, hb]; omega), hb]
    simp [wide, hbits]
  | succ k ih =>
    have hb := toNat_byte (n := v / 64 ^ (k + 1) % 64 + 0x80) (by omega)
    have hbits : v / 64 ^ (k + 2) * 64 + v / 64 ^ (k + 1) % 64 = v / 64 ^ (k + 1) := by
      rw [Nat.pow_succ 64 (k + 1), ← Nat.div_div_eq_div_mul]
      omega
    rw [← ih, tail, List.cons_append, unitsFrom,
      take_of_admits (by rw [admits_wide_iff, hb]; omega), hb]
    simp only [wide, Nat.add_sub_cancel, hbits]
    rfl

/-- What is read to its end is a tail. -/
theorem exists_tail_of_unitsFrom {bits : Nat}
    (h : unitsFrom (some (wide (k + 1) bits)) bs = some c :: us) :
    ∃ v rest, bs = tail v (k + 1) ++ rest ∧ v / 64 ^ (k + 1) = bits := by
  induction k generalizing bits bs with
  | zero =>
    obtain ⟨b, rest, rfl, hb⟩ := exists_admits_of_unitsFrom h
    rw [admits_wide_iff] at hb
    refine ⟨bits * 64 + (b.toNat - 0x80), rest, ?_, by omega⟩
    have hbyte : (bits * 64 + (b.toNat - 0x80)) % 64 + 0x80 = b.toNat := by omega
    simp only [tail, Nat.pow_zero, Nat.div_one, hbyte, UInt8.ofNat_toNat]
    rfl
  | succ k ih =>
    obtain ⟨b, rest, rfl, hb⟩ := exists_admits_of_unitsFrom h
    rw [unitsFrom, take_of_admits hb] at h
    rw [admits_wide_iff] at hb
    obtain ⟨v, rest, rfl, hv⟩ := ih h
    refine ⟨v, rest, ?_, ?_⟩
    · have hbyte : v / 64 ^ (k + 1) % 64 + 0x80 = b.toNat := by
        rw [hv]
        simp only [wide]
        omega
      have htail : tail v (k + 2) = b :: tail v (k + 1) := by
        rw [tail, hbyte, UInt8.ofNat_toNat]
      rw [htail, List.cons_append]
    · rw [Nat.pow_succ 64 (k + 1), ← Nat.div_div_eq_div_mul, hv]
      simp only [wide]
      omega

/-- The encoding of the character with a number. -/
def encoding (v : Nat) : List UInt8 :=
  if v < 0x80 then [UInt8.ofNat v]
  else if v < 0x800 then UInt8.ofNat (v / 64 + 0xC0) :: tail v 1
  else if v < 0x10000 then UInt8.ofNat (v / 64 ^ 2 + 0xE0) :: tail v 2
  else UInt8.ofNat (v / 64 ^ 3 + 0xF0) :: tail v 3

theorem utf8EncodeChar_eq (c : Char) : String.utf8EncodeChar c = encoding c.toNat := by
  have hv : c.toNat.isValidChar := c.valid
  unfold String.utf8EncodeChar encoding
  dsimp only
  rw [Char.toNat_val]
  generalize c.toNat = v at hv
  simp only [show v ≤ 127 ↔ v < 0x80 by omega, show v ≤ 2047 ↔ v < 0x800 by omega,
    show v ≤ 65535 ↔ v < 0x10000 by omega, tail, Nat.reducePow, Nat.div_one]
  split
  · rfl
  split
  · rw [Nat.mod_eq_of_lt (by omega : v / 64 < 32)]
  split
  · rw [Nat.mod_eq_of_lt (by omega : v / 4096 < 16)]
  · rw [Nat.mod_eq_of_lt (by omega : v / 262144 < 8)]

/-- A tail whose first byte the opening byte admits is read to its end. -/
theorem unitsFrom_opened (hlead : lead b = .opens ⟨k + 1, low, high, v / 64 ^ (k + 1)⟩)
    (hrange : low.toNat ≤ v / 64 ^ k % 64 + 0x80 ∧ v / 64 ^ k % 64 + 0x80 ≤ high.toNat)
    (bs : List UInt8) :
    unitsFrom none (b :: tail v (k + 1) ++ bs) = some (Char.ofNat v) :: unitsFrom none bs := by
  have hb := toNat_byte (n := v / 64 ^ k % 64 + 0x80) (by omega)
  have hadmits : Pending.Admits ⟨k + 1, low, high, v / 64 ^ (k + 1)⟩
      (UInt8.ofNat (v / 64 ^ k % 64 + 0x80)) := by
    rw [Pending.Admits, hb]
    exact hrange
  have hwide : (wide (k + 1) (v / 64 ^ (k + 1))).Admits
      (UInt8.ofNat (v / 64 ^ k % 64 + 0x80)) := by
    rw [admits_wide_iff, hb]
    omega
  rw [List.cons_append, unitsFrom_opens hlead, ← unitsFrom_tail v k bs, tail, List.cons_append]
  exact unitsFrom_congr hadmits hwide rfl rfl _

/-- Behind the opening byte of three, the second byte is in the range that the opening byte sets
exactly if two bytes are too few and the number is that of a character. -/
theorem second_of_three_iff (hfirst : v / 64 ^ 2 + 0xE0 = n) (hn : n < 0xF0) :
    (if n = 0xE0 then 0xA0 else 0x80 : UInt8).toNat ≤ v / 64 ^ 1 % 64 + 0x80 ∧
        v / 64 ^ 1 % 64 + 0x80 ≤ (if n = 0xED then 0x9F else 0xBF : UInt8).toNat ↔
      0x800 ≤ v ∧ v.isValidChar := by
  rw [apply_ite UInt8.toNat, apply_ite UInt8.toNat, Nat.isValidChar]
  change (if n = 0xE0 then 0xA0 else 0x80) ≤ _ ∧ _ ≤ (if n = 0xED then 0x9F else 0xBF) ↔ _
  split <;> split <;> omega

/-- Behind the opening byte of four, it is so exactly if three bytes are too few and the number is
that of a character. -/
theorem second_of_four_iff (hfirst : v / 64 ^ 3 + 0xF0 = n) (hn : n < 0xF5) :
    (if n = 0xF0 then 0x90 else 0x80 : UInt8).toNat ≤ v / 64 ^ 2 % 64 + 0x80 ∧
        v / 64 ^ 2 % 64 + 0x80 ≤ (if n = 0xF4 then 0x8F else 0xBF : UInt8).toNat ↔
      0x10000 ≤ v ∧ v.isValidChar := by
  rw [apply_ite UInt8.toNat, apply_ite UInt8.toNat, Nat.isValidChar]
  change (if n = 0xF0 then 0x90 else 0x80) ≤ _ ∧ _ ≤ (if n = 0xF4 then 0x8F else 0xBF) ↔ _
  split <;> split <;> omega

/-- The encoding of a character is read as it. -/
theorem unitsFrom_encoding (hv : v.isValidChar) (bs : List UInt8) :
    unitsFrom none (encoding v ++ bs) = some (Char.ofNat v) :: unitsFrom none bs := by
  have hbound : v < 0x110000 := by
    unfold Nat.isValidChar at hv
    omega
  unfold encoding
  split
  · refine unitsFrom_whole ?_ bs
    rw [lead_eq, toNat_byte (by omega), if_pos (by omega)]
  split
  · have hrange : (0x80 : UInt8).toNat ≤ v / 64 ^ 0 % 64 + 0x80 ∧
        v / 64 ^ 0 % 64 + 0x80 ≤ (0xBF : UInt8).toNat := by
      change 0x80 ≤ _ ∧ _ ≤ 0xBF
      omega
    refine unitsFrom_opened ?_ hrange bs
    rw [lead_eq, toNat_byte (by omega), if_neg (by omega), if_neg (by omega), if_pos (by omega),
      Nat.add_sub_cancel, Nat.zero_add, Nat.pow_one]
  split
  · refine unitsFrom_opened ?_ ((second_of_three_iff rfl (by omega)).2 ⟨by omega, hv⟩) bs
    rw [lead_eq, toNat_byte (by omega), if_neg (by omega), if_neg (by omega), if_neg (by omega),
      if_pos (by omega), Nat.add_sub_cancel]
  · refine unitsFrom_opened ?_ ((second_of_four_iff rfl (by omega)).2 ⟨by omega, hv⟩) bs
    rw [lead_eq, toNat_byte (by omega), if_neg (by omega), if_neg (by omega), if_neg (by omega),
      if_neg (by omega), if_pos (by omega), Nat.add_sub_cancel]

/-- What is read to its end behind an opening byte is a tail whose first byte that byte admits. -/
theorem exists_opened_of_unitsFrom {bits : Nat}
    (h : unitsFrom (some ⟨k + 1, low, high, bits⟩) bs = some c :: us) (hlow : 0x80 ≤ low.toNat)
    (hhigh : high.toNat ≤ 0xBF) :
    ∃ v rest, bs = tail v (k + 1) ++ rest ∧ v / 64 ^ (k + 1) = bits ∧
      low.toNat ≤ v / 64 ^ k % 64 + 0x80 ∧ v / 64 ^ k % 64 + 0x80 ≤ high.toNat := by
  obtain ⟨b, bs, rfl, hb⟩ := exists_admits_of_unitsFrom h
  have hwide : (wide (k + 1) bits).Admits b := admits_wide_iff.2
    ⟨Nat.le_trans hlow hb.1, Nat.le_trans hb.2 hhigh⟩
  rw [unitsFrom_congr hb hwide rfl rfl] at h
  obtain ⟨v, rest, hbytes, hv⟩ := exists_tail_of_unitsFrom h
  have hfirst : b = UInt8.ofNat (v / 64 ^ k % 64 + 0x80) := (List.cons.inj hbytes).1
  refine ⟨v, rest, hbytes, hv, ?_⟩
  rw [← toNat_byte (n := v / 64 ^ k % 64 + 0x80) (by omega), ← hfirst]
  exact hb

/-- Only the encoding of a character is read as one. -/
theorem exists_encoding_of_unitsFrom (h : unitsFrom none bs = some c :: us) :
    ∃ v rest, v.isValidChar ∧ bs = encoding v ++ rest := by
  cases bs with
  | nil => cases h
  | cons b bs =>
    have hb : b.toNat < 256 := b.toNat_lt
    -- one case for each range of the first byte
    have hlead := lead_eq b
    split at hlead
    · refine ⟨b.toNat, bs, by unfold Nat.isValidChar; omega, ?_⟩
      rw [encoding, if_pos (by omega), UInt8.ofNat_toNat, List.singleton_append]
    split at hlead
    · simp [unitsFrom, take, start, hlead] at h
    split at hlead
    · rw [unitsFrom_opens hlead] at h
      obtain ⟨v, rest, rfl, hv, -⟩ :=
        exists_opened_of_unitsFrom h (Nat.le_refl _) (Nat.le_refl _)
      have hfirst : v / 64 + 0xC0 = b.toNat := by omega
      refine ⟨v, rest, by unfold Nat.isValidChar; omega, ?_⟩
      rw [encoding, if_neg (by omega), if_pos (by omega), hfirst, UInt8.ofNat_toNat,
        List.cons_append]
    split at hlead
    · rw [unitsFrom_opens hlead] at h
      obtain ⟨v, rest, rfl, hv, hrange⟩ := exists_opened_of_unitsFrom h
        (by split <;> decide) (by split <;> decide)
      have hfirst : v / 64 ^ 2 + 0xE0 = b.toNat := by omega
      obtain ⟨hleast, hvalid⟩ := (second_of_three_iff hfirst (by omega)).1 hrange
      refine ⟨v, rest, hvalid, ?_⟩
      rw [encoding, if_neg (by omega), if_neg (by omega), if_pos (by omega), hfirst,
        UInt8.ofNat_toNat, List.cons_append]
    split at hlead
    · rw [unitsFrom_opens hlead] at h
      obtain ⟨v, rest, rfl, hv, hrange⟩ := exists_opened_of_unitsFrom h
        (by split <;> decide) (by split <;> decide)
      have hfirst : v / 64 ^ 3 + 0xF0 = b.toNat := by omega
      obtain ⟨hleast, hvalid⟩ := (second_of_four_iff hfirst (by omega)).1 hrange
      refine ⟨v, rest, hvalid, ?_⟩
      rw [encoding, if_neg (by omega), if_neg (by omega), if_neg (by omega), hfirst,
        UInt8.ofNat_toNat, List.cons_append]
    · simp [unitsFrom, take, start, hlead] at h

theorem toNat_ofNat (h : v.isValidChar) : (Char.ofNat v).toNat = v := by
  rw [Char.ofNat, dif_pos h]
  rfl

/-- An open character leaves a unit, whether it is read to its end or not. -/
theorem unitsFrom_opened_ne_nil (p : Pending) (bs : List UInt8) : unitsFrom (some p) bs ≠ [] := by
  induction bs generalizing p with
  | nil => simp [unitsFrom]
  | cons b bs ih =>
    simp only [unitsFrom, take]
    split
    · split
      · simp
      · simpa using ih _
    · simp

theorem unitsFrom_cons_ne_nil (b : UInt8) (bs : List UInt8) : unitsFrom none (b :: bs) ≠ [] := by
  cases h : lead b with
  | opens p =>
    rw [unitsFrom_opens h]
    exact unitsFrom_opened_ne_nil p bs
  | _ => simp [unitsFrom, take, start, h]

/-- The bytes of some characters are read as these. -/
theorem unitsFrom_encoded (cs : List Char) :
    unitsFrom none (cs.flatMap String.utf8EncodeChar) = cs.map some := by
  induction cs with
  | nil => rfl
  | cons c cs ih =>
    have hc := unitsFrom_encoding (v := c.toNat) c.valid (cs.flatMap String.utf8EncodeChar)
    rw [List.flatMap_cons, utf8EncodeChar_eq, hc, Char.ofNat_toNat, ih, List.map_cons]

/-- Bytes that are read as some characters are the bytes of these. -/
theorem eq_encoded_of_unitsFrom {cs : List Char} (h : unitsFrom none bs = cs.map some) :
    bs = cs.flatMap String.utf8EncodeChar := by
  induction cs generalizing bs with
  | nil =>
    cases bs with
    | nil => rfl
    | cons b bs => exact absurd h (unitsFrom_cons_ne_nil b bs)
  | cons c cs ih =>
    obtain ⟨v, rest, hv, rfl⟩ := exists_encoding_of_unitsFrom h
    rw [unitsFrom_encoding hv] at h
    obtain ⟨hc, hrest⟩ := List.cons.inj h
    obtain rfl := Option.some.inj hc
    rw [List.flatMap_cons, utf8EncodeChar_eq, toNat_ofNat hv, ← ih hrest]

/-- Bytes are decoded to a text exactly if they are its encoding. -/
theorem decode?_eq_some_iff {bytes : ByteArray} {s : String} :
    decode? bytes = some s ↔ bytes = s.toUTF8 := by
  obtain ⟨cs, rfl⟩ : ∃ cs, s = String.ofList cs := ⟨s.toList, String.ofList_toList.symm⟩
  have hlist : bytes = (String.ofList cs).toUTF8 ↔
      bytes.toList = cs.flatMap String.utf8EncodeChar := by
    rw [String.toUTF8_eq_toByteArray, String.toByteArray_ofList, toList_bytes, List.utf8Encode,
      ByteArray.ext_iff, List.data_toByteArray, ← Array.toList_inj]
  rw [decode?, units, hlist, Option.map_eq_some_iff]
  constructor
  · rintro ⟨ds, hds, hs⟩
    obtain rfl := String.ofList_injective hs
    have hunits := mapM_eq_some_iff.1 hds
    rw [List.map_id] at hunits
    exact eq_encoded_of_unitsFrom hunits
  · intro h
    refine ⟨cs, mapM_eq_some_iff.2 ?_, rfl⟩
    rw [List.map_id, h, unitsFrom_encoded]

/-- Strict decoding undoes encoding. -/
theorem decode?_toUTF8 (s : String) : decode? s.toUTF8 = some s := decode?_eq_some_iff.2 rfl

/-- Of three bytes that follow the pattern, too long an encoding and that of a surrogate are refused. -/
example : decode? ⟨#[0xE0, 0x80, 0x80]⟩ = none ∧ decode? ⟨#[0xED, 0xA0, 0x80]⟩ = none ∧
    decode? ⟨#[0xE2, 0x82, 0xAC]⟩ = some "€" := by
  decide +kernel

end Text.Utf8

end Overlay
