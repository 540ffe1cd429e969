import Mathlib.Data.List.DropRight
import USprache.Ustlib.IntegerText

/-!
# Parsing of floating-point numbers

`parse_float_impl` for `f32` and `f64`.  A floating-point number is its bit pattern.  The
text is split into parts first; the digits are then converted to a long number of 32-bit
words, the lowest one first, which is multiplied or divided by powers of five and rounded.

An index outside of the array of words and a failed assertion are faults.  Operations of
`size_type` and of 32-bit types are taken modulo their sizes.
-/

namespace USprache.Ustlib

def SizeType.bits : SizeType → Nat
  | bytes4 => 32
  | bytes8 => 64

/-- `FloatPropertiesF32` and `FloatPropertiesF64`. -/
structure FloatProperties where
  /-- The size of `IntegerType` in bits. -/
  integerBits : Nat
  numMantissaBits : Nat
  maxDecimalOrder : Int
  minDecimalOrder : Int

namespace FloatProperties

variable (FP : FloatProperties)

def numExponentBits : Nat := FP.integerBits - 1 - FP.numMantissaBits

def exponentBias : Nat := 2 ^ (FP.numExponentBits - 1) - 1

def maxExponentValue : Nat := 2 ^ FP.numExponentBits - 1

def infinity : Nat := FP.maxExponentValue * 2 ^ FP.numMantissaBits

def signMask : Nat := 2 ^ (FP.integerBits - 1)

end FloatProperties

def floatPropertiesF32 : FloatProperties :=
  { integerBits := 32, numMantissaBits := 23, maxDecimalOrder := 40, minDecimalOrder := -46 }

def floatPropertiesF64 : FloatProperties :=
  { integerBits := 64, numMantissaBits := 52, maxDecimalOrder := 311, minDecimalOrder := -341 }

def log10DivLog2Fixed8 : Nat := 851

def log5DivLog2Fixed8 : Nat := 595

namespace FloatParsing

open CharType NumberParsing

inductive Fault where
  | indexOutOfRange
  | failedAssertion
deriving DecidableEq

/-! ## Splitting the text -/

section Text

variable {C : Type} [CharType C]

/-- `CharType( u32( c ) | c_ascii_to_lower_or_mask )`. -/
def toLower (c : C) : Nat := toNat c ||| 32

structure Parts (C : Type) where
  integerPart : List C
  fractionalPart : List C
  decimalExponent : Int

/-- The exponent behind its sign, from the value of its first digits on. -/
def scanExponentDigits (decimalExponent : Int) : List C → Int
  | [] => decimalExponent
  | c :: digits =>
    scanExponentDigits (min (decimalExponent * 10 + (toNat c - zeroChar)) 65536) digits

/-- The part behind `e`. -/
def scanExponent (s : List C) : Option (Int × List C) :=
  let (negative, s) :=
    match s with
    | [] => (false, [])
    | c :: rest =>
      if toNat c = minusChar then (true, rest)
      else if toNat c = 43 then (false, rest)
      else (false, c :: rest)
  -- Require at least one exponent digit.
  if s.isEmpty then none
  else
    let exponent := scanExponentDigits 0 (s.takeWhile isDigit)
    some (if negative then -exponent else exponent, s.dropWhile isDigit)

def scanFractionalPart : List C → Option (List C × List C)
  | [] => some ([], [])
  | c :: rest =>
    if toNat c = 46 then
      -- Require at least one fractional digit.
      if rest.isEmpty then none
      else some (rest.takeWhile isDigit, rest.dropWhile isDigit)
    else some ([], c :: rest)

/-- The parts of the number at the start of the range, and the range behind it. -/
def scan (s : List C) : Option (Parts C × List C) :=
  match s with
  | [] => none
  | firstChar :: _ =>
    if ¬isDigit firstChar then none
    else
      match scanFractionalPart (s.dropWhile isDigit) with
      | none => none
      | some (fractionalPart, rest) =>
        match rest with
        | [] => some (⟨s.takeWhile isDigit, fractionalPart, 0⟩, [])
        | c :: rest =>
          -- The character is `e` or `E`.
          if toLower c = 101 then
            (scanExponent rest).map fun (exponent, rest) =>
              (⟨s.takeWhile isDigit, fractionalPart, exponent⟩, rest)
          else some (⟨s.takeWhile isDigit, fractionalPart, 0⟩, c :: rest)

def isZero (c : C) : Bool := toNat c = zeroChar

/-- The digits without leading and trailing zeros, and the number of fractional digits that
are left of the end. -/
structure Significand (C : Type) where
  integerPart : List C
  fractionalPart : List C
  numFractionalDigits : Nat

def Parts.trim (parts : Parts C) : Significand C :=
  let integerPart := parts.integerPart.dropWhile isZero
  -- Trim leading zeros in fractional part if integer part is zero.
  let fractionalPart :=
    if integerPart.isEmpty then parts.fractionalPart.dropWhile isZero else parts.fractionalPart
  let trimmed := fractionalPart.rdropWhile isZero
  { integerPart := integerPart
    fractionalPart := trimmed
    numFractionalDigits := parts.fractionalPart.length - fractionalPart.length + trimmed.length }

def Significand.digits (significand : Significand C) : List Nat :=
  (significand.integerPart ++ significand.fractionalPart).map fun c => CharType.toNat c - zeroChar

def Significand.numDigits (significand : Significand C) : Nat :=
  significand.integerPart.length + significand.fractionalPart.length

end Text

/-! ## Long arithmetic -/

def wordBits : Nat := 32

/-- One step of the loops that multiply: the new word and the carry. -/
def mulWord (factor word carry : Nat) : Nat × Nat :=
  let scaled := (word * factor + carry) % 2 ^ 64
  (scaled % 2 ^ wordBits, scaled / 2 ^ wordBits)

def mulWords (factor : Nat) : Nat → List Nat → List Nat × Nat
  | carry, [] => ([], carry)
  | carry, word :: words =>
    let (word, carry) := mulWord factor word carry
    let (words, carry) := mulWords factor carry words
    (word :: words, carry)

def mulWordsChecked (factor carry : Nat) (words : List Nat) : Except Fault (List Nat) :=
  let (words, carry) := mulWords factor carry words
  if carry = 0 then .ok words else .error .failedAssertion

def shiftWords (shift : Nat) : Nat → List Nat → List Nat × Nat
  | carry, [] => ([], carry)
  | carry, word :: words =>
    let shifted := (word <<< shift) % 2 ^ 64 ||| carry
    let (words, carry) := shiftWords shift (shifted / 2 ^ wordBits) words
    (shifted % 2 ^ wordBits :: words, carry)

def shiftWholeWords (numWordShifts : Nat) (words : List Nat) : List Nat :=
  List.replicate (min numWordShifts words.length) 0 ++ words.take (words.length - numWordShifts)

/-- The division of a half of a word: the quotient and the remainder. -/
def divHalf (divisor half remainder : Nat) : Nat × Nat :=
  let x := (half + remainder <<< 16) % 2 ^ 32
  (x / divisor % 2 ^ 16, x % divisor)

/-- The division of all words, the highest one first, and the remainder. -/
def divWords (divisor : Nat) : List Nat → List Nat × Nat
  | [] => ([], 0)
  | word :: words =>
    let (words, remainder) := divWords divisor words
    let (wordHi, remainder) := divHalf divisor (word >>> 16 % 2 ^ 16) remainder
    let (wordLo, remainder) := divHalf divisor (word % 2 ^ 16) remainder
    ((wordLo ||| wordHi <<< 16) :: words, remainder)

def divTimes (divisor : Nat) : Nat → List Nat → Bool → List Nat × Bool
  | 0, words, hasRemainder => (words, hasRemainder)
  | n + 1, words, hasRemainder =>
    let (words, remainder) := divWords divisor words
    divTimes divisor n words (hasRemainder || remainder ≠ 0)

def mulTimes (factor : Nat) : Nat → List Nat → Except Fault (List Nat)
  | 0, words => .ok words
  | n + 1, words => do
    let words ← mulWordsChecked factor 0 words
    mulTimes factor n words

/-- The conversion of the significand with many digits. -/
def pushDigitsToWords : List Nat → List Nat → Except Fault (List Nat)
  | [], words => .ok words
  | digit :: digits, words => do
    let words ← mulWordsChecked 10 digit words
    pushDigitsToWords digits words

/-- `words[ i ]`. -/
def getWord (words : List Nat) (i : Nat) : Except Fault Nat :=
  match words[i]? with
  | some word => .ok word
  | none => .error .indexOutOfRange

/-- `words[ i ]= word`. -/
def setWord (words : List Nat) (i word : Nat) : Except Fault (List Nat) :=
  if i < words.length then .ok (words.set i word) else .error .indexOutOfRange

def convertSignificand (digits : List Nat) (numWords : Nat) : Except Fault (List Nat) :=
  let words := List.replicate numWords 0
  if digits.length ≤ 19 then
    let significand64 := digits.foldl (fun significand d => (significand * 10 % 2 ^ 64 + d) % 2 ^ 64) 0
    do
      let words ← setWord words 0 (significand64 % 2 ^ wordBits)
      if words.length ≥ 2 then setWord words 1 (significand64 / 2 ^ wordBits)
      else if significand64 / 2 ^ wordBits = 0 then .ok words
      else .error .failedAssertion
  else pushDigitsToWords digits words

/-- The products and the quotients by powers of five, and whether a remainder was lost. -/
def scaleWords (resultDecimalExponent : Int) (numLeftBitShifts : Nat) (words : List Nat) :
    Except Fault (List Nat × Bool) :=
  if resultDecimalExponent ≥ 0 then do
    let numFiveMultiplications := toUnsigned 32 resultDecimalExponent
    let words ← mulTimes 1220703125 (numFiveMultiplications / 13) words
    if numFiveMultiplications % 13 > 0 then
      let words ← mulWordsChecked (5 ^ (numFiveMultiplications % 13)) 0 words
      .ok (words, false)
    else .ok (words, false)
  else
    let words := shiftWholeWords (numLeftBitShifts / wordBits) words
    let (words, carry) := shiftWords (numLeftBitShifts % wordBits) 0 words
    if carry ≠ 0 then .error .failedAssertion
    else
      let numDivisionsBy5 := toUnsigned 32 (-resultDecimalExponent)
      let (words, hasRemainder) := divTimes 15625 (numDivisionsBy5 / 6) words false
      .ok (divTimes 5 (numDivisionsBy5 % 6) words hasRemainder)

/-! ## Rounding -/

/-- The index of the most major one bit of a non-zero word. -/
def lastOneBitOfWord (word : Nat) : Nat := wordBits - 1 - (wordBits - 1 - Nat.log2 word)

/-- The index of the most major one bit; the highest word that is not zero has it. -/
def findLastOneBit : List Nat → Option Nat
  | [] => none
  | word :: words =>
    match findLastOneBit words with
    | some i => some (i + wordBits)
    | none => if word ≠ 0 then some (lastOneBitOfWord word) else none

variable (FP : FloatProperties)

def extractMantissa (words : List Nat) (lastOneBitIndex : Nat) :
    Except Fault Nat :=
  if lastOneBitIndex > 0 then do
    let majorMantissaBitIndex := lastOneBitIndex - 1
    let i := majorMantissaBitIndex / wordBits
    let shift := 1 + majorMantissaBitIndex % wordBits
    let word ← getWord words i
    let high := word <<< (FP.integerBits - shift) % 2 ^ FP.integerBits
    let binaryMantissa ←
      if FP.integerBits = 32 then
        if i > 0 ∧ shift < wordBits then do
          let word1 ← getWord words (i - 1)
          .ok (high ||| word1 >>> shift)
        else .ok high
      else
        if i > 0 then do
          let word1 ← getWord words (i - 1)
          let middle := high ||| word1 <<< (wordBits - shift) % 2 ^ FP.integerBits
          if i > 1 then do
            let word2 ← getWord words (i - 2)
            .ok (middle ||| word2 >>> shift)
          else .ok middle
        else .ok high
    .ok (binaryMantissa >>> (FP.integerBits - FP.numMantissaBits))
  else .ok 0

/-- Whether the mantissa is to be rounded up, if its last bit is `numMantissaBits - 1` places
behind the most major one bit. -/
def needRoundUp (words : List Nat) (lastOneBitIndex numActualMantissaBitsPlusOne : Nat)
    (hasRemainder : Bool) : Except Fault Bool :=
  if lastOneBitIndex ≥ numActualMantissaBitsPlusOne then do
    let firstFractionalBit := lastOneBitIndex - numActualMantissaBitsPlusOne
    let wordIndex := firstFractionalBit / wordBits
    let word ← getWord words wordIndex
    let mask := 1 <<< (firstFractionalBit % wordBits)
    if word &&& mask ≠ 0 then
      let remainingWordsOr := (words.take wordIndex).foldl (· ||| ·) (word &&& (mask - 1))
      if remainingWordsOr = 0 ∧ !hasRemainder then do
        -- We have a tie.
        let bit := lastOneBitIndex + 1 - numActualMantissaBitsPlusOne
        let tieWord ← getWord words (bit / wordBits)
        .ok (tieWord &&& 1 <<< (bit % wordBits) ≠ 0)
      else .ok true
    else .ok false
  else if hasRemainder then .error .failedAssertion
  else .ok false

/-- The bit pattern from the mantissa and the exponent, rounded up if needed. -/
def composeFloat (sign : Nat) (binaryMantissa : Nat) (binaryExponent : Int)
    (roundUp : Bool) : Nat :=
  let (binaryMantissa, binaryExponent) :=
    if roundUp then
      if (binaryMantissa + 1) &&& 2 ^ FP.numMantissaBits ≠ 0 then (0, toSigned 32 (binaryExponent + 1))
      else (binaryMantissa + 1, binaryExponent)
    else (binaryMantissa, binaryExponent)
  if binaryExponent ≥ FP.maxExponentValue then sign ||| FP.infinity
  else
    sign ||| (toUnsigned FP.integerBits binaryExponent * 2 ^ FP.numMantissaBits) % 2 ^ FP.integerBits |||
      binaryMantissa

/-- The nearest floating-point number to the long number. -/
def roundWords (sign : Nat) (words : List Nat) (hasRemainder : Bool)
    (binaryExponent : Int) : Except Fault Nat := do
  let lastOneBitIndex := (findLastOneBit words).getD 0
  let binaryMantissa ← extractMantissa FP words lastOneBitIndex
  let binaryExponent := toSigned 32 (binaryExponent + toSigned 32 lastOneBitIndex)
  if binaryExponent ≤ 0 then
    if toSigned 32 (-binaryExponent) > FP.numMantissaBits then .ok sign
    else do
      -- Handle subnormal numbers.
      let shift := toUnsigned 32 (1 - binaryExponent)
      let binaryMantissa := (binaryMantissa ||| 2 ^ FP.numMantissaBits) >>> shift
      let roundUp ← needRoundUp words lastOneBitIndex (FP.numMantissaBits + 1 - shift) hasRemainder
      .ok (composeFloat FP sign binaryMantissa 0 roundUp)
  else do
    let roundUp ← needRoundUp words lastOneBitIndex (FP.numMantissaBits + 1) hasRemainder
    .ok (composeFloat FP sign binaryMantissa binaryExponent roundUp)

/-! ## The parser -/

/-- The number of shifts that leave enough bits after the divisions by five. -/
def numLeftBitShifts (resultDecimalExponent : Int) : Nat :=
  if resultDecimalExponent ≥ 0 then 0
  else
    (toUnsigned 32 (-resultDecimalExponent) * log5DivLog2Fixed8 % 2 ^ 32 / 2 ^ 8 +
      FP.numMantissaBits + 3) % 2 ^ 32

def numTotalBits (size : SizeType) (numSignificandDigits : Nat)
    (resultDecimalExponent : Int) : Nat :=
  let digitBits := numSignificandDigits * log10DivLog2Fixed8 % 2 ^ size.bits / 2 ^ 8 + 1
  if resultDecimalExponent ≥ 0 then
    (digitBits +
      (toUnsigned size.bits resultDecimalExponent * log5DivLog2Fixed8 % 2 ^ size.bits / 2 ^ 8 + 1)) %
        2 ^ size.bits
  else (digitBits + numLeftBitShifts FP resultDecimalExponent) % 2 ^ size.bits

def convert (size : SizeType) (sign : Nat) (digits : List Nat)
    (resultDecimalExponent : Int) : Except Fault Nat := do
  let totalBits := numTotalBits FP size digits.length resultDecimalExponent
  let shifts := numLeftBitShifts FP resultDecimalExponent
  let words ← convertSignificand digits ((totalBits + (wordBits - 1)) % 2 ^ size.bits / wordBits)
  let (words, hasRemainder) ← scaleWords resultDecimalExponent shifts words
  let binaryExponent := toSigned 32 (FP.exponentBias + resultDecimalExponent)
  roundWords FP sign words hasRemainder (toSigned 32 (binaryExponent - toSigned 32 shifts))

section Text

variable {C : Type} [CharType C] (size : SizeType)

/-- `continue_parsing_finite_float`: the number, and the range behind it. -/
def continueParsingFiniteFloat (sign : Nat) (s : List C) :
    Except Fault (Option Nat × List C) :=
  match scan s with
  | none => .ok (none, s)
  | some (parts, rest) =>
    let significand := parts.trim
    if significand.numDigits = 0 then .ok (some sign, rest)
    else
      let resultDecimalExponent :=
        toSigned 32 (parts.decimalExponent - toSigned 32 significand.numFractionalDigits)
      let order := toSigned 32 (resultDecimalExponent + toSigned 32 significand.numDigits)
      if order > FP.maxDecimalOrder then .ok (some (sign ||| FP.infinity), rest)
      else if order < FP.minDecimalOrder then .ok (some sign, rest)
      else do
        let bits ← convert FP size sign significand.digits resultDecimalExponent
        .ok (some bits, rest)

/-- The range behind a word of lower-case letters, if the range starts with it. -/
def dropWord : List Nat → List C → Option (List C)
  | [], s => some s
  | _ :: _, [] => none
  | letter :: letters, c :: s => if toLower c = letter then dropWord letters s else none

/-- `parse_float_impl`: the bit pattern of the number, and the range behind it. -/
def parseFloatImpl (s : List C) :
    Except Fault (Option Nat × List C) :=
  let (sign, s) :=
    match s with
    | [] => (0, [])
    | c :: rest => if toNat c = minusChar then (FP.signMask, rest) else (0, c :: rest)
  -- `nan`
  match dropWord [110, 97, 110] s with
  | some rest => .ok (some (sign ||| FP.infinity ||| 1), rest)
  | none =>
    -- `inf`, and `inity` behind it
    match dropWord [105, 110, 102] s with
    | some rest =>
      .ok (some (sign ||| FP.infinity), (dropWord [105, 110, 105, 116, 121] rest).getD rest)
    | none => continueParsingFiniteFloat FP size sign s

def parseAndExtractFloat (range : List C) :
    Except Fault (Option Nat × List C) := do
  match ← parseFloatImpl FP size range with
  | (some bits, rangeCopy) => .ok (some bits, rangeCopy)
  | (none, _) => .ok (none, range)

end Text

end FloatParsing
end USprache.Ustlib
