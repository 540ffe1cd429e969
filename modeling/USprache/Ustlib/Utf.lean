import Mathlib.Algebra.Ring.Nat
import USprache.Library.PrefixCode

/-!
# UTF conversions of ustlib

Strings are lists of code units.  A string view is its list of units too.
-/

namespace USprache.Ustlib.Utf

open List Nat

abbrev String8 := List UInt8
abbrev String16 := List UInt16
abbrev String32 := List UInt32

/-- The conversions of a 32-bit value to `char8` and `char16`. -/
def toChar8 (c : UInt32) : UInt8 := c.toUInt8
def toChar16 (c : UInt32) : UInt16 := c.toUInt16

def pushCodePointToString8 (str : String8) (codePoint : UInt32) : String8 :=
  let cc := codePoint
  if cc ≤ 0x7F then str ++ [toChar8 cc]
  else if cc ≤ 0x7FF then
    str ++ [toChar8 ((0b11000000 : UInt32) ||| (cc >>> 6)),
        toChar8 ((0b10000000 : UInt32) ||| (cc &&& 63))]
  else if cc ≤ 0xFFFF then
    str ++ [toChar8 ((0b11100000 : UInt32) ||| (cc >>> 12)),
        toChar8 ((0b10000000 : UInt32) ||| ((cc >>> 6) &&& 63)),
        toChar8 ((0b10000000 : UInt32) ||| (cc &&& 63))]
  else if cc ≤ 0x10FFFF then
    str ++ [toChar8 ((0b11110000 : UInt32) ||| (cc >>> 18)),
        toChar8 ((0b10000000 : UInt32) ||| ((cc >>> 12) &&& 63)),
        toChar8 ((0b10000000 : UInt32) ||| ((cc >>> 6) &&& 63)),
        toChar8 ((0b10000000 : UInt32) ||| (cc &&& 63))]
  else str

def pushCodePointToString16 (str : String16) (codePoint : UInt32) : String16 :=
  if codePoint < 0xD800 ∨ (codePoint > 0xDFFF ∧ codePoint < 0x10000) then
    str ++ [toChar16 codePoint]
  else
    let c := codePoint - 0x10000
    str ++ [toChar16 ((c >>> 10) + 0xD800), toChar16 ((c &&& 0x3FF) + 0xDC00)]

def pushCodePointToString32 (str : String32) (codePoint : UInt32) : String32 := str ++ [codePoint]

/-- `c_bit_masks[ n ]`. -/
def bitMask (n : UInt32) : UInt32 := ((1 : UInt32) <<< n) - 1

def bitField (unit : UInt8) (bits shift : UInt32) : UInt32 := (unit.toUInt32 &&& bitMask bits) <<< shift

/-- If the units that are left are not enough, they are consumed. -/
def extractCodePointOrNullFromString8 : String8 → UInt32 × String8
  | [] => (0, [])
  | c :: str =>
    if c.toUInt32 < 0b10000000 then (c.toUInt32, str)
    else if c.toUInt32 < 0b11100000 then
      match str with
      | c1 :: str => (bitField c 5 6 ||| bitField c1 6 0, str)
      | _ => (0, [])
    else if c.toUInt32 < 0b11110000 then
      match str with
      | c1 :: c2 :: str => (bitField c 4 12 ||| bitField c1 6 6 ||| bitField c2 6 0, str)
      | _ => (0, [])
    else if c.toUInt32 < 0b11111000 then
      match str with
      | c1 :: c2 :: c3 :: str =>
        (bitField c 3 18 ||| bitField c1 6 12 ||| bitField c2 6 6 ||| bitField c3 6 0, str)
      | _ => (0, [])
    else (0, str)

def extractCodePointOrNullFromString16 : String16 → UInt32 × String16
  | [] => (0, [])
  | c :: str =>
    if 0xD800 ≤ c.toUInt32 ∧ c.toUInt32 ≤ 0xDBFF then
      -- Surrogate pair.
      match str with
      | pairedC :: str =>
        (((c.toUInt32 - 0xD800) <<< 10) + (pairedC.toUInt32 - 0xDC00) + 0x10000, str)
      | [] => (0, [])
    else (c.toUInt32, str)

def extractCodePointOrNullFromString32 : String32 → UInt32 × String32
  | [] => (0, [])
  | c :: str => (c, str)

open Library

/-- "In any case given string is advanced, if it isn't empty." -/
def extractor8 : Extractor UInt8 UInt32 where
  run := extractCodePointOrNullFromString8
  shorter s hs := by
    cases s with
    | nil => exact absurd rfl hs
    | cons c str =>
      rw [extractCodePointOrNullFromString8.eq_def]
      grind

def extractor16 : Extractor UInt16 UInt32 where
  run := extractCodePointOrNullFromString16
  shorter s hs := by
    fun_cases extractCodePointOrNullFromString16 s
    case case1 => exact absurd rfl hs
    all_goals grind

def extractor32 : Extractor UInt32 UInt32 where
  run := extractCodePointOrNullFromString32
  shorter s hs := by
    cases s with
    | nil => exact absurd rfl hs
    | cons c str => exact lt_succ_self _

def convertUtf8ToUtf16String (s : String8) : String16 := extractor8.convert pushCodePointToString16 s []
def convertUtf8ToUtf32String (s : String8) : String32 := extractor8.convert pushCodePointToString32 s []
def convertUtf16ToUtf8String (s : String16) : String8 := extractor16.convert pushCodePointToString8 s []
def convertUtf16ToUtf32String (s : String16) : String32 :=
  extractor16.convert pushCodePointToString32 s []
def convertUtf32ToUtf8String (s : String32) : String8 := extractor32.convert pushCodePointToString8 s []
def convertUtf32ToUtf16String (s : String32) : String16 :=
  extractor32.convert pushCodePointToString16 s []

def utf16EncodeChar (c : Char) : List UInt16 :=
  if c.toNat < 0x10000 then [UInt16.ofNat c.toNat]
  else
    [UInt16.ofNat (0xD800 + (c.toNat - 0x10000) / 0x400),
      UInt16.ofNat (0xDC00 + (c.toNat - 0x10000) % 0x400)]

def utf32EncodeChar (c : Char) : List UInt32 := [c.val]

variable (text : List Char)

/-- The encodings of a sequence of Unicode scalar values. -/
def encodeUtf8 : String8 := text.flatMap String.utf8EncodeChar
def encodeUtf16 : String16 := text.flatMap utf16EncodeChar
def encodeUtf32 : String32 := text.flatMap utf32EncodeChar

theorem scalarValue (c : Char) :
    c.val.toNat < 0xD800 ∨ (0xDFFF < c.val.toNat ∧ c.val.toNat < 0x110000) :=
  c.valid

variable {a : Nat} {shift : UInt32} {n : Nat} {b0 b1 : UInt8} {b : Nat}

theorem or_eq_add {x : Nat} (k : Nat) (ha : 2 ^ k ∣ a) (hx : x < 2 ^ k) : a ||| x = a + x := by
  obtain ⟨m, rfl⟩ := ha
  rw [mul_comm, ← shiftLeft_eq, shiftLeft_add_eq_or_of_lt hx]

theorem toChar8_or {a x : UInt32} (k : Nat) (ha : 2 ^ k ∣ a.toNat) (hx : x.toNat < 2 ^ k) :
    toChar8 (a ||| x) = UInt8.ofNat (x.toNat + a.toNat) := by
  apply UInt8.toNat_inj.1
  rw [toChar8, UInt32.toNat_toUInt8, UInt32.toNat_or, or_eq_add k ha hx, add_comm, UInt8.toNat_ofNat']

theorem toNat_shiftRight (c s : UInt32) : (c >>> s).toNat = c.toNat / 2 ^ (s.toNat % 32) := by
  rw [UInt32.toNat_shiftRight, shiftRight_eq_div_pow]

theorem toChar8_lead {c a s : UInt32} (k : Nat) (ha : 2 ^ k ∣ a.toNat)
    (hc : c.toNat / 2 ^ (s.toNat % 32) < 2 ^ k) :
    toChar8 (a ||| (c >>> s)) = UInt8.ofNat (c.toNat / 2 ^ (s.toNat % 32) % 2 ^ k + a.toNat) := by
  rw [toChar8_or k ha (by rw [toNat_shiftRight]; exact hc), toNat_shiftRight, mod_eq_of_lt hc]

theorem toChar8_continuation (c : UInt32) :
    toChar8 ((0b10000000 : UInt32) ||| (c &&& 63)) = UInt8.ofNat (c.toNat % 0x40 + 0x80) := by
  have hmask : (c &&& 63).toNat = c.toNat % 64 := by
    exact and_two_pow_sub_one_eq_mod c.toNat 6
  rw [toChar8_or 6 (by decide) (by rw [hmask]; omega), hmask]
  rfl

theorem pushCodePointToString8_writes :
    Extractor.Writes pushCodePointToString8 Char.val String.utf8EncodeChar := by
  intro res c
  have hc := scalarValue c
  unfold pushCodePointToString8 String.utf8EncodeChar
  generalize c.val = cc at hc
  simp only [UInt32.le_iff_toNat_le, UInt32.reduceToNat]
  have h1 := toChar8_continuation cc
  have h2 : toChar8 ((0b10000000 : UInt32) ||| (cc >>> 6 &&& 63)) = UInt8.ofNat (cc.toNat / 64 % 0x40 + 0x80) := by
    rw [toChar8_continuation, toNat_shiftRight]
    rfl
  have h3 : toChar8 ((0b10000000 : UInt32) ||| (cc >>> 12 &&& 63)) =
      UInt8.ofNat (cc.toNat / 4096 % 0x40 + 0x80) := by
    rw [toChar8_continuation, toNat_shiftRight]
    rfl
  split
  · congr
  split
  · have h0 : toChar8 ((0b11000000 : UInt32) ||| (cc >>> 6)) = UInt8.ofNat (cc.toNat / 64 % 0x20 + 0xC0) :=
      toChar8_lead 5 (by decide) (show cc.toNat / 64 < 32 by omega)
    rw [h0, h1]
  split
  · have h0 : toChar8 ((0b11100000 : UInt32) ||| (cc >>> 12)) = UInt8.ofNat (cc.toNat / 4096 % 0x10 + 0xE0) :=
      toChar8_lead 4 (by decide) (show cc.toNat / 4096 < 16 by omega)
    rw [h0, h2, h1]
  · have h0 : toChar8 ((0b11110000 : UInt32) ||| (cc >>> 18)) = UInt8.ofNat (cc.toNat / 262144 % 0x08 + 0xF0) :=
      toChar8_lead 3 (by decide) (show cc.toNat / 262144 < 8 by omega)
    rw [if_pos (by omega), h0, h3, h2, h1]

theorem toNat_bitField (unit : UInt8) {bs : UInt32} (k s : Nat)
    (hmask : (bitMask bs).toNat = 2 ^ k - 1) (hsh : shift.toNat % 32 = s) (hfit : k + s ≤ 32) :
    (bitField unit bs shift).toNat = unit.toNat % 2 ^ k * 2 ^ s := by
  have hlt : unit.toNat % 2 ^ k * 2 ^ s < 2 ^ 32 := by
    calc unit.toNat % 2 ^ k * 2 ^ s < 2 ^ k * 2 ^ s :=
          Nat.mul_lt_mul_of_pos_right (mod_lt _ (Nat.two_pow_pos k)) (Nat.two_pow_pos s)
      _ = 2 ^ (k + s) := (pow_add 2 k s).symm
      _ ≤ 2 ^ 32 := Nat.pow_le_pow_right (by decide) hfit
  rw [bitField, UInt32.toNat_shiftLeft, UInt32.toNat_and, UInt8.toNat_toUInt32, hmask, hsh,
    and_two_pow_sub_one_eq_mod, shiftLeft_eq, mod_eq_of_lt hlt]

theorem toNat_ofNat_of_lt (h : n < 256) : (UInt8.ofNat n).toNat = n := by
  rw [UInt8.toNat_ofNat', mod_eq_of_lt h]

theorem extractCodePoint8_one {b : UInt8} (str : String8) (h : b.toNat < 0x80) :
    extractCodePointOrNullFromString8 (b :: str) = (b.toUInt32, str) := by
  refine if_pos ?_
  exact h

theorem extractCodePoint8_two (str : String8) (h : 0x80 ≤ b0.toNat) (h' : b0.toNat < 0xE0) :
    extractCodePointOrNullFromString8 (b0 :: b1 :: str) = (bitField b0 5 6 ||| bitField b1 6 0, str) := by
  simp only [extractCodePointOrNullFromString8, UInt32.lt_iff_toNat_lt, UInt8.toNat_toUInt32,
    UInt32.reduceToNat]
  rw [if_neg (by omega), if_pos h']

theorem extractCodePoint8_three {b2 : UInt8} (str : String8) (h : 0xE0 ≤ b0.toNat)
    (h' : b0.toNat < 0xF0) :
    extractCodePointOrNullFromString8 (b0 :: b1 :: b2 :: str) =
      (bitField b0 4 12 ||| bitField b1 6 6 ||| bitField b2 6 0, str) := by
  simp only [extractCodePointOrNullFromString8, UInt32.lt_iff_toNat_lt, UInt8.toNat_toUInt32,
    UInt32.reduceToNat]
  rw [if_neg (by omega), if_neg (by omega), if_pos h']

theorem extractCodePoint8_four {b2 b3 : UInt8} (str : String8) (h : 0xF0 ≤ b0.toNat)
    (h' : b0.toNat < 0xF8) :
    extractCodePointOrNullFromString8 (b0 :: b1 :: b2 :: b3 :: str) =
      (bitField b0 3 18 ||| bitField b1 6 12 ||| bitField b2 6 6 ||| bitField b3 6 0, str) := by
  simp only [extractCodePointOrNullFromString8, UInt32.lt_iff_toNat_lt, UInt8.toNat_toUInt32,
    UInt32.reduceToNat]
  rw [if_neg (by omega), if_neg (by omega), if_neg (by omega), if_pos h']

theorem toNat_bitField_lead {bs : UInt32} (m k s : Nat) (hm : m = 2 ^ k)
    (hmask : (bitMask bs).toNat = 2 ^ k - 1) (hsh : shift.toNat % 32 = s) (hfit : k + s ≤ 32)
    (ha : a % m = 0) (hlt : n % m + a < 256) :
    (bitField (UInt8.ofNat (n % m + a)) bs shift).toNat = n % m * 2 ^ s := by
  rw [toNat_bitField _ k s hmask hsh hfit, ← hm, toNat_ofNat_of_lt hlt, add_mod, ha,
    add_zero, mod_mod, mod_mod]

theorem toNat_bitField_continuation (n : Nat) (s : Nat) (hsh : shift.toNat % 32 = s)
    (hfit : 6 + s ≤ 32) :
    (bitField (UInt8.ofNat (n % 0x40 + 0x80)) 6 shift).toNat = n % 0x40 * 2 ^ s :=
  toNat_bitField_lead 0x40 6 s rfl rfl hsh hfit rfl (by omega)

theorem fields_two (hb : b < 64) : a * 2 ^ 6 ||| b * 2 ^ 0 = a * 64 + b := by
  rw [or_eq_add 6 (Nat.dvd_mul_left _ _) (by omega)]
  omega

theorem fields_three {c : Nat} (hb : b < 64) (hc : c < 64) :
    a * 2 ^ 12 ||| b * 2 ^ 6 ||| c * 2 ^ 0 = a * 4096 + b * 64 + c := by
  rw [or_eq_add (x := b * 2 ^ 6) 12 (Nat.dvd_mul_left _ _) (by omega), or_eq_add 6 (by omega) (by omega)]
  omega

theorem fields_four {c d : Nat} (hb : b < 64) (hc : c < 64) (hd : d < 64) :
    a * 2 ^ 18 ||| b * 2 ^ 12 ||| c * 2 ^ 6 ||| d * 2 ^ 0 = a * 262144 + b * 4096 + c * 64 + d := by
  rw [or_eq_add (x := b * 2 ^ 12) 18 (Nat.dvd_mul_left _ _) (by omega),
    or_eq_add (x := c * 2 ^ 6) 12 (by omega) (by omega), or_eq_add 6 (by omega) (by omega)]
  omega

theorem extractCodePoint8_reads : extractor8.Reads Char.val String.utf8EncodeChar := by
  intro c r
  have hc := scalarValue c
  unfold String.utf8EncodeChar
  generalize c.val = cc at hc
  dsimp only
  split
  · have hb := toNat_ofNat_of_lt (show cc.toNat < 256 by omega)
    refine (extractCodePoint8_one r (by omega)).trans (Prod.ext (UInt32.toNat_inj.1 ?_) rfl)
    rw [UInt8.toNat_toUInt32, hb]
  split
  · have hb := toNat_ofNat_of_lt (show cc.toNat / 64 % 0x20 + 0xC0 < 256 by omega)
    refine (extractCodePoint8_two r (by omega) (by omega)).trans
      (Prod.ext (UInt32.toNat_inj.1 ?_) rfl)
    rw [UInt32.toNat_or, toNat_bitField_lead 0x20 5 6 rfl rfl rfl (by decide) rfl (by omega),
      toNat_bitField_continuation _ 0 rfl (by decide), fields_two (by omega)]
    show _ = cc.toNat
    omega
  split
  · have hb := toNat_ofNat_of_lt (show cc.toNat / 4096 % 0x10 + 0xE0 < 256 by omega)
    refine (extractCodePoint8_three r (by omega) (by omega)).trans
      (Prod.ext (UInt32.toNat_inj.1 ?_) rfl)
    rw [UInt32.toNat_or, UInt32.toNat_or,
      toNat_bitField_lead 0x10 4 12 rfl rfl rfl (by decide) rfl (by omega),
      toNat_bitField_continuation _ 6 rfl (by decide), toNat_bitField_continuation _ 0 rfl (by decide),
      fields_three (by omega) (by omega)]
    show _ = cc.toNat
    omega
  · have hb := toNat_ofNat_of_lt (show cc.toNat / 262144 % 0x08 + 0xF0 < 256 by omega)
    refine (extractCodePoint8_four r (by omega) (by omega)).trans
      (Prod.ext (UInt32.toNat_inj.1 ?_) rfl)
    rw [UInt32.toNat_or, UInt32.toNat_or, UInt32.toNat_or,
      toNat_bitField_lead 0x08 3 18 rfl rfl rfl (by decide) rfl (by omega),
      toNat_bitField_continuation _ 12 rfl (by decide), toNat_bitField_continuation _ 6 rfl (by decide),
      toNat_bitField_continuation _ 0 rfl (by decide), fields_four (by omega) (by omega) (by omega)]
    show _ = cc.toNat
    omega

theorem toChar16_eq {c : UInt32} (h : c.toNat = n) : toChar16 c = UInt16.ofNat n := by
  apply UInt16.toNat_inj.1
  rw [toChar16, UInt32.toNat_toUInt16, UInt16.toNat_ofNat', h]

theorem pushCodePointToString16_writes :
    Extractor.Writes pushCodePointToString16 Char.val utf16EncodeChar := by
  intro res c
  have hc := scalarValue c
  unfold pushCodePointToString16 utf16EncodeChar
  rw [show c.toNat = c.val.toNat from rfl]
  generalize c.val = cc at hc
  simp only [UInt32.lt_iff_toNat_lt, UInt32.reduceToNat]
  by_cases h : cc.toNat < 0x10000
  · rw [if_pos (by omega), if_pos h, toChar16_eq rfl]
  · have hsub : (cc - 0x10000).toNat = cc.toNat - 0x10000 :=
      UInt32.toNat_sub_of_le _ _ (UInt32.le_iff_toNat_le.2 (Nat.le_of_not_lt h))
    have hld : ((cc - 0x10000) >>> 10 + 0xD800).toNat = 0xD800 + (cc.toNat - 0x10000) / 0x400 := by
      rw [UInt32.toNat_add, toNat_shiftRight]
      simp only [UInt32.reduceToNat, reduceMod]
      omega
    have htra : ((cc - 0x10000 &&& 0x3FF) + 0xDC00).toNat =
        0xDC00 + (cc.toNat - 0x10000) % 0x400 := by
      have hand : (cc - 0x10000 &&& 0x3FF).toNat = (cc.toNat - 0x10000) % 0x400 := by
        rw [UInt32.toNat_and, hsub]
        exact and_two_pow_sub_one_eq_mod _ 10
      rw [UInt32.toNat_add]
      simp only [UInt32.reduceToNat]
      omega
    rw [if_neg (by omega), if_neg h, toChar16_eq hld, toChar16_eq htra]

theorem toNat_unit16 (h : n < 65536) : (UInt16.ofNat n).toUInt32.toNat = n := by
  rw [UInt16.toNat_toUInt32, UInt16.toNat_ofNat', mod_eq_of_lt h]

theorem extractCodePoint16_one {c : UInt16} (str : String16)
    (h : c.toUInt32.toNat < 0xD800 ∨ 0xDFFF < c.toUInt32.toNat) :
    extractCodePointOrNullFromString16 (c :: str) = (c.toUInt32, str) := by
  refine if_neg ?_
  simp only [UInt32.le_iff_toNat_le, UInt32.reduceToNat]
  omega

theorem extractCodePoint16_pair {c pairedC : UInt16} (str : String16)
    (h : 0xD800 ≤ c.toUInt32.toNat) (h' : c.toUInt32.toNat ≤ 0xDBFF) :
    extractCodePointOrNullFromString16 (c :: pairedC :: str) =
      (((c.toUInt32 - 0xD800) <<< 10) + (pairedC.toUInt32 - 0xDC00) + 0x10000, str) := by
  exact if_pos ⟨UInt32.le_iff_toNat_le.2 h, UInt32.le_iff_toNat_le.2 h'⟩

theorem extractCodePoint16_reads : extractor16.Reads Char.val utf16EncodeChar := by
  intro c r
  have hc := scalarValue c
  unfold utf16EncodeChar
  rw [show c.toNat = c.val.toNat from rfl]
  generalize c.val = cc at hc
  split
  · have hunit := toNat_unit16 (show cc.toNat < 65536 by omega)
    refine (extractCodePoint16_one r (by omega)).trans (Prod.ext (UInt32.toNat_inj.1 ?_) rfl)
    exact hunit
  · have hld := toNat_unit16 (show 0xD800 + (cc.toNat - 0x10000) / 0x400 < 65536 by omega)
    have htra := toNat_unit16 (show 0xDC00 + (cc.toNat - 0x10000) % 0x400 < 65536 by omega)
    refine (extractCodePoint16_pair r (by omega) (by omega)).trans
      (Prod.ext (UInt32.toNat_inj.1 ?_) rfl)
    generalize UInt16.ofNat (0xD800 + (cc.toNat - 0x10000) / 0x400) = lead at hld
    generalize UInt16.ofNat (0xDC00 + (cc.toNat - 0x10000) % 0x400) = trail at htra
    have hhi : (lead.toUInt32 - 0xD800).toNat = (cc.toNat - 0x10000) / 0x400 := by
      rw [UInt32.toNat_sub_of_le _ _ (UInt32.le_iff_toNat_le.2 (by rw [hld]; exact le_add_right _ _)), hld]
      exact Nat.add_sub_cancel_left _ _
    have hlow : (trail.toUInt32 - 0xDC00).toNat = (cc.toNat - 0x10000) % 0x400 := by
      rw [UInt32.toNat_sub_of_le _ _ (UInt32.le_iff_toNat_le.2 (by rw [htra]; exact le_add_right _ _)), htra]
      exact Nat.add_sub_cancel_left _ _
    have hsh : ((lead.toUInt32 - 0xD800) <<< 10).toNat = (cc.toNat - 0x10000) / 0x400 * 0x400 := by
      rw [UInt32.toNat_shiftLeft]
      simp only [UInt32.reduceToNat, reduceMod]
      omega
    show ((lead.toUInt32 - 0xD800) <<< 10 + (trail.toUInt32 - 0xDC00) + 0x10000).toNat = cc.toNat
    rw [UInt32.toNat_add, UInt32.toNat_add]
    simp only [UInt32.reduceToNat]
    omega

theorem pushCodePointToString32_writes :
    Extractor.Writes pushCodePointToString32 Char.val utf32EncodeChar :=
  fun _ _ => rfl

theorem extractCodePoint32_reads : extractor32.Reads Char.val utf32EncodeChar := fun _ _ => rfl

theorem utf16EncodeChar_ne_nil (c : Char) : utf16EncodeChar c ≠ [] := by
  unfold utf16EncodeChar
  split
  · exact cons_ne_nil _ _
  · exact cons_ne_nil _ _

/-- Each conversion maps the encoding of a text to its other encoding, and so the
conversions are inverse to each other. -/
theorem conversions_exact :
    convertUtf8ToUtf16String (encodeUtf8 text) = encodeUtf16 text ∧
    convertUtf8ToUtf32String (encodeUtf8 text) = encodeUtf32 text ∧
    convertUtf16ToUtf8String (encodeUtf16 text) = encodeUtf8 text ∧
    convertUtf16ToUtf32String (encodeUtf16 text) = encodeUtf32 text ∧
    convertUtf32ToUtf8String (encodeUtf32 text) = encodeUtf8 text ∧
    convertUtf32ToUtf16String (encodeUtf32 text) = encodeUtf16 text ∧
    convertUtf16ToUtf8String (convertUtf8ToUtf16String (encodeUtf8 text)) = encodeUtf8 text ∧
    convertUtf32ToUtf8String (convertUtf8ToUtf32String (encodeUtf8 text)) = encodeUtf8 text ∧
    convertUtf32ToUtf16String (convertUtf16ToUtf32String (encodeUtf16 text)) = encodeUtf16 text ∧
    convertUtf8ToUtf32String (encodeUtf8 text) =
      convertUtf16ToUtf32String (convertUtf8ToUtf16String (encodeUtf8 text)) := by
  have h8 := fun c => @String.utf8EncodeChar_ne_nil c
  have h32 : ∀ c, utf32EncodeChar c ≠ [] := fun _ => cons_ne_nil _ _
  have h8to16 : convertUtf8ToUtf16String (encodeUtf8 text) = encodeUtf16 text :=
    Extractor.convert_flatMap extractCodePoint8_reads h8 pushCodePointToString16_writes text []
  have h8to32 : convertUtf8ToUtf32String (encodeUtf8 text) = encodeUtf32 text :=
    Extractor.convert_flatMap extractCodePoint8_reads h8 pushCodePointToString32_writes text []
  have h16to8 : convertUtf16ToUtf8String (encodeUtf16 text) = encodeUtf8 text :=
    Extractor.convert_flatMap extractCodePoint16_reads utf16EncodeChar_ne_nil
      pushCodePointToString8_writes text []
  have h16to32 : convertUtf16ToUtf32String (encodeUtf16 text) = encodeUtf32 text :=
    Extractor.convert_flatMap extractCodePoint16_reads utf16EncodeChar_ne_nil
      pushCodePointToString32_writes text []
  have h32to8 : convertUtf32ToUtf8String (encodeUtf32 text) = encodeUtf8 text :=
    Extractor.convert_flatMap extractCodePoint32_reads h32 pushCodePointToString8_writes text []
  have h32to16 : convertUtf32ToUtf16String (encodeUtf32 text) = encodeUtf16 text :=
    Extractor.convert_flatMap extractCodePoint32_reads h32 pushCodePointToString16_writes text []
  refine ⟨h8to16, h8to32, h16to8, h16to32, h32to8, h32to16, ?_, ?_, ?_, ?_⟩
  · rw [h8to16, h16to8]
  · rw [h8to32, h32to8]
  · rw [h16to32, h32to16]
  · rw [h8to32, h8to16, h16to32]

end USprache.Ustlib.Utf
