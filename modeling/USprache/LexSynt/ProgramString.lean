import Mathlib.Data.Nat.Bitwise
import Mathlib.Tactic.NormNum

/-!
# Program text

Program text is a sequence of bytes, meant to be UTF-8 but never checked to be.
A read position is the part of the text from that position on, and the distance
between two positions is the difference of the lengths.  The byte behind the last
one is the terminating NUL.

Code points are natural numbers.  Positions are 32-bit in the source, so a
distance is taken modulo `2 ^ 32` where the source converts one.
-/

namespace USprache.LexSynt

open List UInt8

abbrev Text := List UInt8

instance : LawfulBEq Text := inferInstance

def ascii (c : Char) : UInt8 := ofNat c.toNat

def asciiText (s : String) : Text := s.toList.map ascii

/-- The byte at distance `i` from the read position. -/
def byteAt (s : Text) (i : Nat) : Nat := (s.getD i 0).toNat

@[simp] theorem byteAt_cons_zero (b : UInt8) (s : Text) : byteAt (b :: s) 0 = b.toNat := rfl

@[simp] theorem byteAt_cons_succ (b : UInt8) (s : Text) (i : Nat) :
    byteAt (b :: s) (i + 1) = byteAt s i := rfl

/-- The conversion of a pointer difference to `uint32_t`. -/
def toUInt32 (n : Nat) : Nat := n % 2 ^ 32

theorem toUInt32_of_lt {n : Nat} (h : n < 2 ^ 32) : toUInt32 n = n := Nat.mod_eq_of_lt h

/-- `c_bit_masks[ n ]`. -/
def bitMask (n : Nat) : Nat := (1 <<< n) - 1

theorem and_bitMask (x n : Nat) : x &&& bitMask n = x % 2 ^ n := by
  rw [bitMask, Nat.one_shiftLeft, Nat.and_two_pow_sub_one_eq_mod]

/-- `ReadNextUTF8Char` with the end of the text `n` bytes ahead.  A sequence that does
not fit before the end is skipped as a whole and read as zero. -/
def readNextUTF8CharUntil (s : Text) (n : Nat) : Nat × Text :=
  let c := byteAt s 0
  if c < 0b10000000 then (c, s.drop 1)
  else if c < 0b11100000 then
    if n < 2 then (0, s.drop n)
    else
      (((byteAt s 0 &&& bitMask 5) <<< 6) ||| (byteAt s 1 &&& bitMask 6), s.drop 2)
  else if c < 0b11110000 then
    if n < 3 then (0, s.drop n)
    else
      (((byteAt s 0 &&& bitMask 4) <<< 12) ||| ((byteAt s 1 &&& bitMask 6) <<< 6) |||
        (byteAt s 2 &&& bitMask 6), s.drop 3)
  else if c < 0b11111000 then
    if n < 4 then (0, s.drop n)
    else
      (((byteAt s 0 &&& bitMask 3) <<< 18) ||| ((byteAt s 1 &&& bitMask 6) <<< 12) |||
        ((byteAt s 2 &&& bitMask 6) <<< 6) |||
        (byteAt s 3 &&& bitMask 6), s.drop 4)
  else (0, s.drop 1)

def readNextUTF8Char (s : Text) : Nat × Text := readNextUTF8CharUntil s s.length

def getUTF8FirstChar (s : Text) : Nat := (readNextUTF8Char s).1

/-- `PushCharToUTF8String`: the bytes appended for one code point.  Nothing is
appended above the Unicode range. -/
def pushCharToUTF8String (c : Nat) (str : Text) : Text :=
  if c ≤ 0x7F then str ++ [ofNat c]
  else if c ≤ 0x7FF then
    str ++ [ofNat (0b11000000 ||| (c >>> 6)), ofNat (0b10000000 ||| (c &&& 63))]
  else if c ≤ 0xFFFF then
    str ++ [ofNat (0b11100000 ||| (c >>> 12)), ofNat (0b10000000 ||| ((c >>> 6) &&& 63)),
      ofNat (0b10000000 ||| (c &&& 63))]
  else if c ≤ 0x10FFFF then
    str ++ [ofNat (0b11110000 ||| (c >>> 18)), ofNat (0b10000000 ||| ((c >>> 12) &&& 63)),
      ofNat (0b10000000 ||| ((c >>> 6) &&& 63)), ofNat (0b10000000 ||| (c &&& 63))]
  else str

theorem readNextUTF8CharUntil_length_le (s : Text) (n : Nat) :
    (readNextUTF8CharUntil s n).2.length ≤ s.length := by
  unfold readNextUTF8CharUntil
  simp only
  repeat' split
  all_goals simp

theorem readNextUTF8Char_ascii {b : UInt8} (h : b.toNat < 0x80) (s : Text) :
    readNextUTF8Char (b :: s) = (b.toNat, s) := by
  exact if_pos h

theorem readNextUTF8Char_cases (s : Text) :
    ∃ k, 1 ≤ k ∧ k ≤ 4 ∧ (readNextUTF8Char s).2 = s.drop k := by
  unfold readNextUTF8Char readNextUTF8CharUntil
  have drop_short : ∀ m, s.length < m → s.drop s.length = s.drop m := by
    intro m hm
    rw [drop_length, drop_eq_nil_of_le (by omega)]
  simp only
  split
  · exact ⟨1, by omega, by omega, rfl⟩
  · split
    · split
      · next h => exact ⟨2, by omega, by omega, drop_short 2 h⟩
      · exact ⟨2, by omega, by omega, rfl⟩
    · split
      · split
        · next h => exact ⟨3, by omega, by omega, drop_short 3 h⟩
        · exact ⟨3, by omega, by omega, rfl⟩
      · split
        · split
          · next h => exact ⟨4, by omega, by omega, drop_short 4 h⟩
          · exact ⟨4, by omega, by omega, rfl⟩
        · exact ⟨1, by omega, by omega, rfl⟩

theorem readNextUTF8Char_length_lt {s : Text} (h : s ≠ []) :
    (readNextUTF8Char s).2.length < s.length := by
  obtain ⟨k, hk, -, heq⟩ := readNextUTF8Char_cases s
  have := length_pos_iff.2 h
  rw [heq, length_drop]
  omega

theorem readNextUTF8Char_suffix (s : Text) : (readNextUTF8Char s).2 <:+ s := by
  obtain ⟨k, -, -, heq⟩ := readNextUTF8Char_cases s
  rw [heq]
  exact drop_suffix k s

def getNumberOfUTF16Words (codePoint : Nat) : Nat := if codePoint ≤ 0xFFFF then 1 else 2

/-- The common loop of the two conversions to byte positions: read code points
while the text lasts and the counter is below `position`, counting each by
`width`. -/
def advanceTo (width : Nat → Nat) (position : Nat) (s : Text) (current : Nat) : Nat × Text :=
  if _h : s ≠ [] ∧ current < position then
    advanceTo width position (readNextUTF8Char s).2 (current + width (readNextUTF8Char s).1)
  else (current, s)
termination_by s.length
decreasing_by exact readNextUTF8Char_length_lt _h.1

def utf16PositionToUtf8Position (text : Text) (position : Nat) : Option Nat :=
  let (current, s) := advanceTo getNumberOfUTF16Words position text 0
  if current ≠ position then none
  else some (toUInt32 (text.length - s.length))

def utf32PositionToUtf8Position (text : Text) (position : Nat) : Option Nat :=
  let (current, s) := advanceTo (fun _ => 1) position text 0
  if current ≠ position then none
  else some (toUInt32 (text.length - s.length))

end USprache.LexSynt

/-!
## Lines

Which code points end a line, and the index from line numbers to byte positions
that the language server and the error reporter use.
-/

namespace USprache.LexSynt

def isNewline (c : Nat) : Bool :=
  c = 0x0A || -- line feed
  c = 0x0D || -- carriage return
  c = 0x0C || -- form feed
  c = 0x0B || -- vertical tab
  c = 0x0085 || -- next line
  c = 0x2028 || -- line separator
  c = 0x2029 -- paragraph separator

def isNewlineSequence (c0 c1 : Nat) : Bool := c0 = 0x0D && c1 = 0x0A

/-- The second code point of a two-symbol line ending is skipped. -/
def skipSecondNewline (c : Nat) (s : Text) : Text :=
  if s ≠ [] ∧ isNewlineSequence c (readNextUTF8Char s).1 = true then (readNextUTF8Char s).2 else s

theorem skipSecondNewline_suffix (c : Nat) (s : Text) : skipSecondNewline c s <:+ s := by
  unfold skipSecondNewline
  split
  · exact readNextUTF8Char_suffix s
  · exact List.suffix_refl s

/-- The loop of `BuildLineToLinearPositionIndex`, with the size of the whole
text. -/
def lineStarts (size : Nat) (s : Text) : List Nat :=
  if _h : s ≠ [] then
    if isNewline (readNextUTF8Char s).1 then
      let next := skipSecondNewline (readNextUTF8Char s).1 (readNextUTF8Char s).2
      toUInt32 (size - next.length) :: lineStarts size next
    else lineStarts size (readNextUTF8Char s).2
  else []
termination_by s.length
decreasing_by
  · exact Nat.lt_of_le_of_lt (skipSecondNewline_suffix _ _).length_le
      (readNextUTF8Char_length_lt _h)
  · exact readNextUTF8Char_length_lt _h

/-- Lines are counted from one, so the first entry is a dummy. -/
def buildLineToLinearPositionIndex (text : Text) : List Nat := 0 :: 0 :: lineStarts text.length text

end USprache.LexSynt
