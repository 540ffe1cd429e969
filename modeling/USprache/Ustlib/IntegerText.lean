import Mathlib.Algebra.Ring.Int.Defs
import Mathlib.Data.Int.DivMod
import USprache.Ustlib.HashMap

/-!
# Texts of integers

`to_string` and `parse_and_extract_number` for the integer types.  Integers are numbers;
a conversion to a type and an operation that may overflow are taken modulo its size.
Ranges of characters are lists.
-/

namespace USprache.Ustlib

/-- A character type: `char8`, `char16` or `char32`. -/
class CharType (C : Type) where
  /-- `u32( c )`. -/
  toNat : C → Nat
  /-- `C( n )`. -/
  ofNat : Nat → C
  toNat_ofNat : ∀ n, n < 0x80 → toNat (ofNat n) = n
  toNat_injective : Function.Injective toNat

instance : CharType UInt8 where
  toNat := UInt8.toNat
  ofNat := UInt8.ofNat
  toNat_ofNat n h := by
    rw [UInt8.toNat_ofNat']
    exact Nat.mod_eq_of_lt (by omega)
  toNat_injective _ _ := UInt8.toNat_inj.1

instance : CharType UInt16 where
  toNat := UInt16.toNat
  ofNat := UInt16.ofNat
  toNat_ofNat n h := by
    rw [UInt16.toNat_ofNat']
    exact Nat.mod_eq_of_lt (by omega)
  toNat_injective _ _ := UInt16.toNat_inj.1

instance : CharType UInt32 where
  toNat := UInt32.toNat
  ofNat := UInt32.ofNat
  toNat_ofNat n h := by
    rw [UInt32.toNat_ofNat']
    exact Nat.mod_eq_of_lt (by omega)
  toNat_injective _ _ := UInt32.toNat_inj.1

inductive IntegerType where
  | i8 | u8 | i16 | u16 | i32 | u32 | i64 | u64 | i128 | u128 | ssizeType | sizeType
deriving DecidableEq

def toSigned (width : Nat) (n : Int) : Int := n.bmod (2 ^ width)

def toUnsigned (width : Nat) (n : Int) : Nat := (n % 2 ^ width).toNat

/-- `-x` for a signed type of the width. -/
def negate (width : Nat) (x : Int) : Int := (-x).bmod (2 ^ width)

namespace NumberParsing

variable {C : Type} [CharType C]

open CharType

def zeroChar : Nat := 48
def nineChar : Nat := 57
def minusChar : Nat := 45

/-- `c >= C( '0' ) && c <= C( '9' )`. -/
def isDigit (c : C) : Bool := zeroChar ≤ toNat c && toNat c ≤ nineChar

/-- The loop over the digits behind the first one: the result, and the range that is left.
`limit` is the largest result that can be multiplied by ten. -/
def parseDigits (width limit : Nat) : Nat → List C → Option Nat × List C
  | result, [] => (some result, [])
  | result, c :: range =>
    if isDigit c then
      -- Overflow detected.
      if result > limit then (none, c :: range)
      else
        let mul10 := result * 10 % 2 ^ width
        let addDigit := (mul10 + (toNat c - zeroChar)) % 2 ^ width
        -- Overflow detected.
        if addDigit < mul10 then (none, c :: range)
        else parseDigits width limit addDigit range
    else (some result, c :: range)

def parseImplUnsigned (width limit : Nat) : List C → Option Nat × List C
  | [] => (none, [])
  | firstChar :: range =>
    if toNat firstChar = zeroChar then (some 0, range)
    else if ¬(toNat firstChar ≥ zeroChar + 1 ∧ toNat firstChar ≤ nineChar) then (none, range)
    else parseDigits width limit (toNat firstChar - zeroChar) range

def parseImplU32 : List C → Option Nat × List C := parseImplUnsigned 32 429496729
def parseImplU64 : List C → Option Nat × List C := parseImplUnsigned 64 1844674407370955161
def parseImplU128 : List C → Option Nat × List C :=
  parseImplUnsigned 128 34028236692093846346337460743176821145

/-- The result is kept if it is not too large, and converted. -/
def keepUpTo (max : Nat) (convert : Nat → Int) : Option Nat × List C → Option Int × List C
  | (some res, range) => if res ≤ max then (some (convert res), range) else (none, range)
  | (none, range) => (none, range)

def parseImplSigned (width : Nat) (parseUnsigned : List C → Option Nat × List C)
    (maxNegative max : Nat) (range : List C) : Option Int × List C :=
  match range with
  | [] => keepUpTo max (fun res => toSigned width res) (parseUnsigned [])
  | c :: rest =>
    if toNat c = minusChar then
      keepUpTo maxNegative (fun res => negate width (toSigned width res)) (parseUnsigned rest)
    else keepUpTo max (fun res => toSigned width res) (parseUnsigned (c :: rest))

def parseImplI32 : List C → Option Int × List C := parseImplSigned 32 parseImplU32 2147483648 2147483647
def parseImplI64 : List C → Option Int × List C :=
  parseImplSigned 64 parseImplU64 9223372036854775808 9223372036854775807
def parseImplI128 : List C → Option Int × List C :=
  parseImplSigned 128 parseImplU128 170141183460469231731687303715884105728
    170141183460469231731687303715884105727

/-- A result of a wider type is kept if the smaller one has it. -/
def narrow (min max : Int) (convert : Int → Int) : Option Int × List C → Option Int × List C
  | (some num, range) =>
    if num ≥ min ∧ num ≤ max then (some (convert num), range) else (none, range)
  | (none, range) => (none, range)

def unsigned : Option Nat × List C → Option Int × List C
  | (res, range) => (res.map Int.ofNat, range)

variable (size : SizeType)

def parse : IntegerType → List C → Option Int × List C
  | .i8, range => narrow (-128) 127 (toSigned 8) (parseImplI32 range)
  | .u8, range => narrow 0 255 (fun num => toUnsigned 8 num) (unsigned (parseImplU32 range))
  | .i16, range => narrow (-32768) 32767 (toSigned 16) (parseImplI32 range)
  | .u16, range => narrow 0 65535 (fun num => toUnsigned 16 num) (unsigned (parseImplU32 range))
  | .i32, range => parseImplI32 range
  | .u32, range => unsigned (parseImplU32 range)
  | .i64, range => parseImplI64 range
  | .u64, range => unsigned (parseImplU64 range)
  | .i128, range => parseImplI128 range
  | .u128, range => unsigned (parseImplU128 range)
  | .ssizeType, range =>
    match size with
    | .bytes4 => parseImplI32 range
    | .bytes8 => parseImplI64 range
  | .sizeType, range =>
    match size with
    | .bytes4 => unsigned (parseImplU32 range)
    | .bytes8 => unsigned (parseImplU64 range)

/-- `parse_and_extract_number`: the number, and the range after the call. -/
def parseAndExtractNumber (type : IntegerType) (range : List C) :
    Option Int × List C :=
  match parse size type range with
  | (some num, rangeCopy) => (some num, rangeCopy)
  | (none, _) => (none, range)

def parseNumberExact (type : IntegerType) (range : List C) : Option Int :=
  match parse size type range with
  | (some num, []) => some num
  | _ => none

/-- `C( u32( digit ) + u32( zero_char ) )`. -/
def digitChar (digit : Nat) : C := ofNat ((digit % 2 ^ 32 + zeroChar) % 2 ^ 32)

/-- `while( div > x ) div/= 10`. -/
def firstDiv (x div : Nat) : Nat := if div > x then firstDiv x (div / 10) else div
termination_by div

def pushDigits (rem div : Nat) (result : List C) : List C :=
  if div > 0 then
    let digit := rem / div
    pushDigits (rem - digit * div) (div / 10) (result ++ [digitChar digit])
  else result
termination_by div

def toStringImplU8 (x : Nat) (result : List C) : List C :=
  let result :=
    if x ≥ 100 then result ++ [digitChar (x / 100), digitChar (x / 10 % 10)]
    else if x ≥ 10 then result ++ [digitChar (x / 10)]
    else result
  result ++ [digitChar (x % 10)]

/-- The versions for larger types, by the largest power of ten that the type has. -/
def toStringImpl (div x : Nat) (result : List C) : List C :=
  if x = 0 then result ++ [ofNat zeroChar] else pushDigits x (firstDiv x div) result

def toStringImplU16 : Nat → List C → List C := toStringImpl 10000
def toStringImplU32 : Nat → List C → List C := toStringImpl 1000000000
def toStringImplU64 : Nat → List C → List C := toStringImpl 10000000000000000000

def toStringImplU128 (x : Nat) (result : List C) : List C :=
  -- A speculative optimization.
  if x >>> 64 = 0 then toStringImplU64 (toUnsigned 64 x) result
  else toStringImpl 100000000000000000000000000000000000000 x result

def toStringSigned (width : Nat) (impl : Nat → List C → List C) (x : Int) : List C :=
  if x ≥ 0 then impl (toUnsigned width x) []
  else impl (toUnsigned width (negate width x)) [ofNat minusChar]

def toString : IntegerType → Int → List C
  | .i8, x => toStringSigned 8 toStringImplU8 x
  | .u8, x => toStringImplU8 x.toNat []
  | .i16, x => toStringSigned 16 toStringImplU16 x
  | .u16, x => toStringImplU16 x.toNat []
  | .i32, x => toStringSigned 32 toStringImplU32 x
  | .u32, x => toStringImplU32 x.toNat []
  | .i64, x => toStringSigned 64 toStringImplU64 x
  | .u64, x => toStringImplU64 x.toNat []
  | .i128, x => toStringSigned 128 toStringImplU128 x
  | .u128, x => toStringImplU128 x.toNat []
  | .ssizeType, x =>
    match size with
    | .bytes4 => toStringSigned 32 toStringImplU32 x
    | .bytes8 => toStringSigned 64 toStringImplU64 x
  | .sizeType, x =>
    match size with
    | .bytes4 => toStringImplU32 x.toNat []
    | .bytes8 => toStringImplU64 x.toNat []

end NumberParsing
end USprache.Ustlib
