import USprache.LexSynt.EncodedText
import USprache.Library.PrefixCode

/-!
# Conversion of positions

Code points are written to a text and read again, and positions in the text are converted
between bytes, UTF-16 words and code points.
-/

namespace USprache.LexSynt

open List Option

open Library (Extractor)

/-- The common loop of the two conversions from byte positions. -/
def countTo (width : Nat → Nat) (size position : Nat) (s : Text) (current : Nat) : Nat × Text :=
  if _h : s ≠ [] ∧ toUInt32 (size - s.length) < position then
    countTo width size position (readNextUTF8Char s).2
      (toUInt32 (current + width (readNextUTF8Char s).1))
  else (current, s)
termination_by s.length
decreasing_by exact readNextUTF8Char_length_lt _h.1

def countToPosition (width : Nat → Nat) (text : Text) (position : Nat) : Option Nat :=
  let (current, s) := countTo width text.length position text 0
  if toUInt32 (text.length - s.length) ≠ position then none else some current

def utf8PositionToUtf16Position : Text → Nat → Option Nat := countToPosition getNumberOfUTF16Words

def utf8PositionToUtf32Position : Text → Nat → Option Nat := countToPosition fun _ => 1

/-- A code point of the Unicode range, surrogates included. -/
abbrev CodePoint := {c : Nat // c ≤ 0x10FFFF}

/-- The code points are appended with `PushCharToUTF8String`. -/
def pushAll (codes : List CodePoint) : Text :=
  codes.foldl (fun str c => pushCharToUTF8String c.1 str) []

def codePointReader : Extractor UInt8 Nat where
  run := readNextUTF8Char
  shorter _ h := readNextUTF8Char_length_lt h

/-- The code points that `ReadNextUTF8Char` returns until the end of the text. -/
def readAll (text : Text) : List Nat := codePointReader.convert (fun codes c => codes ++ [c]) text []

def bytes (codes : List CodePoint) : Text := codes.flatMap fun c => codePointBytes c.1

variable (c : CodePoint)

theorem bytes_cons (codes : List CodePoint) :
    bytes (c :: codes) = codePointBytes c ++ bytes codes := rfl

theorem pushAll_eq (codes : List CodePoint) : pushAll codes = bytes codes := by
  suffices h : ∀ str, codes.foldl (fun str c => pushCharToUTF8String c.1 str) str =
      str ++ bytes codes from h []
  induction codes with
  | nil => exact fun str => (append_nil str).symm
  | cons c codes ih =>
    intro str
    rw [foldl_cons, pushCharToUTF8String_eq c.2, ih, append_assoc]
    rfl

theorem codePointBytes_length_pos (v : Nat) : 0 < (codePointBytes v).length := by
  unfold codePointBytes
  repeat' split
  all_goals exact Nat.succ_pos _

theorem codePointBytes_ne_nil (v : Nat) : codePointBytes v ≠ [] :=
  length_pos_iff.1 (codePointBytes_length_pos v)

theorem readAll_pushAll (codes : List CodePoint) : readAll (pushAll codes) = codes.map (·.1) := by
  have hrds : codePointReader.Reads (fun c : CodePoint => c.1) fun c => codePointBytes c :=
    fun c r => readNextUTF8Char_codePointBytes c.2 r
  rw [pushAll_eq, map_eq_flatMap]
  exact Extractor.convert_flatMap hrds (fun c => codePointBytes_ne_nil c.1) (fun _ _ => rfl) codes []

/-- How much a code point counts in the other unit: at least one, and no more than its bytes. -/
def Counts (width : Nat → Nat) : Prop := ∀ v, 0 < width v ∧ width v ≤ (codePointBytes v).length

theorem counts_codePoints : Counts fun _ => 1 := fun v => ⟨Nat.one_pos, codePointBytes_length_pos v⟩

theorem counts_words : Counts getNumberOfUTF16Words := by
  intro v
  unfold getNumberOfUTF16Words
  split
  · exact ⟨Nat.one_pos, codePointBytes_length_pos v⟩
  · unfold codePointBytes
    rw [if_neg (by omega), if_neg (by omega), if_neg (by omega)]
    exact ⟨Nat.two_pos, Nat.le_add_left 2 2⟩

def positionOf (width : Nat → Nat) (codes : List CodePoint) : Nat := (codes.map fun c => width c.1).sum

/-- Positions are converted there and back; a position that is given in the other unit is one
between two code points. -/
structure PositionsConvert (width : Nat → Nat) (fromBytes toBytes : Text → Nat → Option Nat)
    (codes : List CodePoint) : Prop where
  back : ∀ p q, fromBytes (pushAll codes) p = some q → toBytes (pushAll codes) q = some p
  boundary : ∀ before after, codes = before ++ after →
    ∃ p, toBytes (pushAll codes) (positionOf width before) = some p ∧
      fromBytes (pushAll codes) p = some (positionOf width before)

variable {width : Nat → Nat} {before after codes : List CodePoint}
  {position current consumed size : Nat}

theorem bytes_append : bytes (before ++ after) = bytes before ++ bytes after := by
  rw [bytes, flatMap_append]
  rfl

theorem bytes_ne_nil (codes : List CodePoint) : bytes (c :: codes) ≠ [] :=
  append_ne_nil_of_left_ne_nil (codePointBytes_ne_nil c) _

theorem positionOf_cons (codes : List CodePoint) :
    positionOf width (c :: codes) = width c + positionOf width codes := sum_cons

theorem length_bytes_cons (codes : List CodePoint) :
    (bytes (c :: codes)).length = (codePointBytes c).length + (bytes codes).length :=
  length_append

theorem advanceTo_bytes (hcs : Counts width) (h : current + positionOf width before = position) :
    advanceTo width position (bytes (before ++ after)) current = (position, bytes after) := by
  induction before generalizing current with
  | nil =>
    rw [show positionOf width [] = 0 from rfl, add_zero] at h
    rw [nil_append, advanceTo, dif_neg (by omega), h]
  | cons c before ih =>
    rw [positionOf_cons] at h
    have hpos := (hcs c).1
    rw [cons_append, advanceTo, dif_pos ⟨bytes_ne_nil c _, by omega⟩, bytes_cons,
      readNextUTF8Char_codePointBytes c.2]
    exact ih (by rw [← h, add_assoc])

/-- One turn of the loop, in a text that is not too long for its counters. -/
theorem countTo_cons (hcs : Counts width) (hlt : size < 2 ^ 32) (c : CodePoint)
    (hsz : consumed + (bytes (c :: codes)).length = size) (hcur : current ≤ consumed)
    (hpos : consumed < position) :
    countTo width size position (bytes (c :: codes)) current =
      countTo width size position (bytes codes) (current + width c) := by
  have hw := (hcs c).2
  have hlen := length_bytes_cons c codes
  have hcsd : size - (bytes (c :: codes)).length = consumed := by omega
  rw [countTo, hcsd, toUInt32_of_lt (by omega), dif_pos ⟨bytes_ne_nil c _, hpos⟩, bytes_cons,
    readNextUTF8Char_codePointBytes c.2]
  rw [toUInt32_of_lt (show current + width c < 2 ^ 32 by omega)]

theorem countTo_reached (hlt : size < 2 ^ 32) (hsz : consumed + (bytes codes).length = size)
    (hpos : position ≤ consumed) :
    countTo width size position (bytes codes) current = (current, bytes codes) := by
  have hcsd : size - (bytes codes).length = consumed := by omega
  rw [countTo, hcsd, toUInt32_of_lt (by omega), dif_neg fun h => Nat.not_lt.2 hpos h.2]

theorem countTo_bytes (hcs : Counts width) (hlt : size < 2 ^ 32)
    (hsz : consumed + (bytes (before ++ after)).length = size) (hcur : current ≤ consumed)
    (hposition : consumed + (bytes before).length = position) :
    countTo width size position (bytes (before ++ after)) current =
      (current + positionOf width before, bytes after) := by
  induction before generalizing consumed current with
  | nil => exact countTo_reached hlt hsz hposition.ge
  | cons c before ih =>
    have hw := (hcs c).2
    have hpos := codePointBytes_length_pos c
    rw [length_bytes_cons] at hposition
    rw [cons_append] at hsz ⊢
    rw [countTo_cons hcs hlt c hsz hcur (by omega), positionOf_cons, ← add_assoc]
    rw [length_bytes_cons, ← add_assoc] at hsz
    exact ih hsz (Nat.add_le_add hcur hw) (by rw [← hposition, add_assoc])

/-- The loop stops between two code points. -/
theorem exists_countTo (position : Nat) (hcs : Counts width) (hlt : size < 2 ^ 32)
    (hsz : consumed + (bytes codes).length = size) (hcur : current ≤ consumed) :
    ∃ before after, codes = before ++ after ∧ countTo width size position (bytes codes) current =
      (current + positionOf width before, bytes after) := by
  induction codes generalizing consumed current with
  | nil => exact ⟨[], [], rfl, by rw [countTo]; rfl⟩
  | cons c codes ih =>
    by_cases hpos : consumed < position
    · rw [countTo_cons hcs hlt c hsz hcur hpos]
      rw [length_bytes_cons, ← add_assoc] at hsz
      obtain ⟨before, after, rfl, hc⟩ := ih hsz (Nat.add_le_add hcur (hcs c).2)
      exact ⟨c :: before, after, rfl, by rw [hc, positionOf_cons, add_assoc]⟩
    · exact ⟨[], c :: codes, rfl, countTo_reached hlt hsz (Nat.not_lt.1 hpos)⟩

theorem length_sub_bytes :
    (bytes (before ++ after)).length - (bytes after).length = (bytes before).length := by
  rw [bytes_append, length_append, Nat.add_sub_cancel]

def toBytePosition (width : Nat → Nat) (text : Text) (position : Nat) : Option Nat :=
  let (current, s) := advanceTo width position text 0
  if current ≠ position then none else some (toUInt32 (text.length - s.length))

theorem toBytePosition_bytes (hcs : Counts width) :
    toBytePosition width (bytes (before ++ after)) (positionOf width before) =
      some (toUInt32 (bytes before).length) := by
  rw [toBytePosition, advanceTo_bytes hcs (zero_add _)]
  show (if _ ≠ _ then none else _) = _
  rw [if_neg (not_not.2 rfl), length_sub_bytes]

theorem positionsConvert (hcs : Counts width) (hlt : (pushAll codes).length < 2 ^ 32) :
    PositionsConvert width (countToPosition width) (toBytePosition width) codes := by
  rw [pushAll_eq] at hlt
  have hbef : ∀ {before after}, codes = before ++ after →
      toUInt32 (bytes before).length = (bytes before).length := by
    rintro before after rfl
    rw [bytes_append, length_append] at hlt
    exact toUInt32_of_lt (by omega)
  constructor
  · intro p q h
    rw [pushAll_eq] at h ⊢
    obtain ⟨before, after, hcod, hc⟩ := exists_countTo p hcs hlt (zero_add _) (le_refl 0)
    rw [countToPosition, hc] at h
    obtain ⟨hp, hq⟩ := ite_none_left_eq_some.1 h
    subst hcod
    rw [not_not, length_sub_bytes, hbef rfl] at hp
    rw [← some.inj hq, zero_add, toBytePosition_bytes hcs, hbef rfl, hp]
  · rintro before after rfl
    rw [pushAll_eq]
    refine ⟨(bytes before).length, ?_, ?_⟩
    · rw [toBytePosition_bytes hcs, hbef rfl]
    · rw [countToPosition, countTo_bytes hcs hlt (zero_add _) (le_refl 0) (zero_add _)]
      show (if _ ≠ _ then none else _) = _
      rw [length_sub_bytes, hbef rfl, if_neg (not_not.2 rfl), zero_add]

/-- The coding is exact, and the conversions of positions are in texts below four gigabytes. -/
theorem coding_exact (codes : List CodePoint) : readAll (pushAll codes) = codes.map (·.1) ∧
    ((pushAll codes).length < 2 ^ 32 →
      PositionsConvert getNumberOfUTF16Words utf8PositionToUtf16Position utf16PositionToUtf8Position
        codes ∧
      PositionsConvert (fun _ => 1) utf8PositionToUtf32Position utf32PositionToUtf8Position codes) :=
  ⟨readAll_pushAll codes, fun hlt =>
    ⟨positionsConvert counts_words hlt, positionsConvert counts_codePoints hlt⟩⟩

theorem coding_exact_smile :
    PositionsConvert getNumberOfUTF16Words utf8PositionToUtf16Position utf16PositionToUtf8Position
      [⟨0x1F600, by decide⟩, ⟨0x61, by decide⟩] :=
  ((coding_exact [⟨0x1F600, by decide⟩, ⟨0x61, by decide⟩]).2 (by decide)).1

theorem length_bytes_replicate (n : Nat) :
    (bytes (replicate n c)).length = n * (codePointBytes c).length := by
  induction n with
  | zero => exact (zero_mul _).symm
  | succ n ih => rw [replicate_succ, length_bytes_cons, ih, Nat.succ_mul, add_comm]

theorem positionOf_replicate (n : Nat) :
    positionOf (fun _ => 1) (replicate n c) = n := by
  rw [positionOf, map_const', length_replicate, sum_replicate_nat, mul_one]

/-- Behind four gigabytes the byte position wraps around. -/
theorem not_positionsConvert_long : ¬∀ codes, PositionsConvert (fun _ => 1)
    utf8PositionToUtf32Position utf32PositionToUtf8Position codes := by
  intro h
  obtain ⟨c, hc⟩ : ∃ c : CodePoint, (codePointBytes c).length = 4 := ⟨⟨0x1F600, by decide⟩, rfl⟩
  obtain ⟨n, hn⟩ : ∃ n, n * 4 = 2 ^ 32 := ⟨2 ^ 30, rfl⟩
  obtain ⟨p, hp, hback⟩ := (h (replicate n c)).boundary _ [] (append_nil _).symm
  have hbytes : toBytePosition _ (bytes (replicate n c ++ [])) _ = _ :=
    toBytePosition_bytes counts_codePoints
  rw [append_nil, ← pushAll_eq] at hbytes
  have hzero : p = 0 := by
    rw [← some.inj (hbytes.symm.trans hp), pushAll_eq, length_bytes_replicate, hc, hn]
    rfl
  rw [hzero, positionOf_replicate] at hback
  unfold utf8PositionToUtf32Position countToPosition at hback
  rw [countTo, dif_neg fun h => Nat.not_lt_zero _ h.2] at hback
  have hcount : 0 = n := some.inj (ite_none_left_eq_some.1 hback).2
  omega

end USprache.LexSynt
