import Mathlib.Data.Nat.Cast.Order.Field
import Mathlib.Tactic.FieldSimp
import USprache.Ustlib.FloatFormat

/-!
# Printing of floating-point numbers

`to_string8` for `f32` and `f64`.  The mantissa is multiplied by a scale from a table; two
bounds are calculated, and the shortest digits between them are taken.

Digits are numbers here until they are put into the result.  Lists of digits start with the
minor one, as the arrays of the source do, unless it is said otherwise.
-/

namespace USprache.Ustlib.FloatPrinting

/-- What differs between `f32_impl` and `f64_impl`. -/
structure Printer where
  FP : FloatProperties
  /-- The size in bits of the elements of `decimal_exponents`. -/
  decimalExponentBits : Nat
  maxDecimalDigits : Nat
  exponentDigits : Nat → List Nat

def exponentDigitsF32 (e : Nat) : List Nat := (if e ≥ 10 then [e / 10] else []) ++ [e % 10]

def exponentDigitsF64 (e : Nat) : List Nat :=
  (if e ≥ 10 then (if e ≥ 100 then [e / 100] else []) ++ [e / 10 % 10] else []) ++ [e % 10]

def printerF32 : Printer :=
  { FP := floatPropertiesF32
    decimalExponentBits := 8
    maxDecimalDigits := 10
    exponentDigits := exponentDigitsF32 }

def printerF64 : Printer :=
  { FP := floatPropertiesF64
    decimalExponentBits := 16
    maxDecimalDigits := 20
    exponentDigits := exponentDigitsF64 }

def extraDecimalExponent : Nat := 1
def extraDecimalScale : Nat := 10
def extraMantissaShift : Nat := 4

namespace Printer

variable (P : Printer)

def numScaleBits : Nat := P.FP.integerBits - extraMantissaShift

/-- The size of the type that scales are calculated in. -/
def wideBits : Nat := 2 * P.FP.integerBits

def one : Nat := 2 ^ (P.numScaleBits + P.FP.integerBits)

/-- The loop for positive binary exponents: the scale and the decimal exponent. -/
def scaleUp : Nat → Nat → Int → Nat × Int
  | 0, scale, decimalExponent => (scale, decimalExponent)
  | n + 1, scale, decimalExponent =>
    if scale ≥ (10 * P.one) >>> 1 then scaleUp n (scale / 5) (decimalExponent + 1)
    else scaleUp n (scale <<< 1 % 2 ^ P.wideBits) decimalExponent

def scaleDown : Nat → Nat → Int → Nat × Int
  | 0, scale, decimalExponent => (scale, decimalExponent)
  | n + 1, scale, decimalExponent =>
    if scale >>> 1 < P.one then scaleDown n (scale * 5 % 2 ^ P.wideBits) (decimalExponent - 1)
    else scaleDown n (scale >>> 1) decimalExponent

def binaryExponent (rawExponent : Nat) : Int :=
  rawExponent - P.FP.exponentBias - P.FP.numMantissaBits

def wideScale (rawExponent : Nat) : Nat × Int :=
  if P.binaryExponent rawExponent > 0 then P.scaleUp (P.binaryExponent rawExponent).toNat P.one 0
  else P.scaleDown (-P.binaryExponent rawExponent).toNat P.one 0

/-- `g_scale_for_exponent_table.scales[ raw_exponent ]`. -/
def scale (rawExponent : Nat) : Nat :=
  (P.wideScale rawExponent).1 >>> P.FP.integerBits % 2 ^ P.FP.integerBits

/-- `g_scale_for_exponent_table.decimal_exponents[ raw_exponent ]`. -/
def decimalExponent (rawExponent : Nat) : Int :=
  toSigned P.decimalExponentBits (P.wideScale rawExponent).2

def significantDigits : Nat → Nat → List Nat
  | 0, _ => []
  | k + 1, n => if n > 0 then n % 10 :: significantDigits k (n / 10) else []

def digitArray (n : Nat) : List Nat :=
  let digits := significantDigits P.maxDecimalDigits n
  digits ++ List.replicate (P.maxDecimalDigits - digits.length) 0

/-- The digits between the bounds, all of them major first: at the first mismatch the digit of the
upper bound is taken, and the remaining digits are zero. -/
def roundDigits : List Nat → List Nat → List Nat
  | c0 :: lower, c1 :: upper =>
    if c0 ≠ c1 then c1 :: List.replicate lower.length 0 else c0 :: roundDigits lower upper
  | lower, _ => lower

def numZeros (digits : List Nat) : Nat := (digits.takeWhile (· = 0)).length

variable {C : Type} [CharType C]

def digitText (digit : Nat) : C := CharType.ofNat (48 + digit)

def fractionText (fractionalPart : List Nat) : List C :=
  if numZeros fractionalPart < fractionalPart.length then
    CharType.ofNat 46 :: (fractionalPart.drop (numZeros fractionalPart)).reverse.map digitText
  else []

def exponentText (decimalExponent : Int) : List C :=
  if decimalExponent ≠ 0 then
    if decimalExponent > 0 then
      CharType.ofNat 101 :: (P.exponentDigits decimalExponent.toNat).map digitText
    else
      CharType.ofNat 101 :: CharType.ofNat 45 ::
        (P.exponentDigits (-decimalExponent).toNat).map digitText
  else []

def numberText (digits : List Nat) (decimalExponent : Int) : List C :=
  -- A little beautification: if the exponent can be removed by introducing a fractional point, this
  -- is done.  Otherwise trailing zeros are removed by making the exponent bigger.
  let hasFraction := decimalExponent < 0 ∧ (-decimalExponent).toNat ≤ digits.length
  let numFractional := if hasFraction then (-decimalExponent).toNat else 0
  let firstNonZero := if hasFraction then 0 else numZeros digits
  let decimalExponent := if hasFraction then 0 else decimalExponent + numZeros digits
  let integerText :=
    if digits.length - numFractional = 0 then [CharType.ofNat 48]
    else (digits.drop (numFractional + firstNonZero)).reverse.map digitText
  integerText ++ ((if numFractional > 0 then fractionText (digits.take numFractional) else []) ++
      P.exponentText decimalExponent)

def shortestDigits (mantissa scale : Nat) : List Nat :=
  let lowerBoundStep := (extraDecimalScale <<< extraMantissaShift) * 7 / 32
  let upperBoundStep := (extraDecimalScale <<< extraMantissaShift) * 15 / 32
  let lowerBound := ((mantissa - lowerBoundStep) * scale) >>> P.FP.integerBits
  let upperBound := ((mantissa + upperBoundStep) * scale) >>> P.FP.integerBits
  let digits := (roundDigits (P.digitArray lowerBound).reverse (P.digitArray upperBound).reverse).reverse
  digits.take (significantDigits P.maxDecimalDigits upperBound).length

def toString8 (bits : Nat) : List C :=
  let isNegative := bits &&& P.FP.signMask ≠ 0
  let exponent := bits / 2 ^ P.FP.numMantissaBits % 2 ^ P.FP.numExponentBits
  let mantissaBits := bits % 2 ^ P.FP.numMantissaBits
  let minus : List C := if isNegative then [CharType.ofNat 45] else []
  if exponent = P.FP.maxExponentValue then
    -- `inf` or `nan`
    minus ++ (if mantissaBits = 0 then [105, 110, 102] else [110, 97, 110]).map CharType.ofNat
  else
    let mantissa :=
      if exponent = 0 then
        -- For denormals use mantissa without leading one and multiplied by two.
        mantissaBits * (extraDecimalScale <<< (extraMantissaShift + 1)) % 2 ^ P.FP.integerBits
      else
        (2 ^ P.FP.numMantissaBits ||| mantissaBits) * (extraDecimalScale <<< extraMantissaShift) %
          2 ^ P.FP.integerBits
    if mantissa = 0 then minus ++ [CharType.ofNat 48]
    else
      minus ++ P.numberText (P.shortestDigits mantissa (P.scale exponent))
        (P.decimalExponent exponent - extraDecimalExponent)

end Printer

def printer : FloatType → Printer
  | .f32 => printerF32
  | .f64 => printerF64

/-! ## The table of scales

A scale is a power of two divided by a power of ten, truncated.  `Tracks` bounds the error
of the loops that calculate it.
-/

open Nat Printer

/-- The scale is truncated at most `steps` times from the exact number `K`. -/
structure Tracks (P : Printer) (steps scale : ℕ) (K : ℚ) : Prop where
  one_le : P.one ≤ scale
  lt_ten : scale < 10 * P.one
  le_exact : (scale : ℚ) ≤ K
  exact_le : K ≤ scale * (1 + 1 / P.one) ^ steps

namespace Tracks

variable {P : Printer} {steps scale : ℕ} {K : ℚ}

theorem one_pos (P : Printer) : 0 < P.one := Nat.two_pow_pos _

theorem base_ge (P : Printer) : (1 : ℚ) ≤ 1 + 1 / P.one := by
  have hpos : (0 : ℚ) < P.one := by exact_mod_cast one_pos P
  have hinv : (0 : ℚ) < 1 / P.one := by positivity
  linarith

theorem start (P : Printer) : Tracks P 0 P.one P.one where
  one_le := le_refl _
  lt_ten := by
    have hpos := one_pos P
    omega
  le_exact := le_rfl
  exact_le := by simp

theorem mul (h : Tracks P steps scale K) {factor : ℕ} (hfac : 0 < factor)
    (hlt : scale * factor < 10 * P.one) : Tracks P (steps + 1) (scale * factor) (K * factor) where
  one_le := h.one_le.trans (Nat.le_mul_of_pos_right _ hfac)
  lt_ten := hlt
  le_exact := by
    push_cast
    exact mul_le_mul_of_nonneg_right h.le_exact (cast_nonneg factor)
  exact_le := by
    have hst : (scale : ℚ) * (1 + 1 / P.one) ^ steps ≤ scale * (1 + 1 / P.one) ^ (steps + 1) :=
      mul_le_mul_of_nonneg_left (pow_le_pow_right₀ (base_ge P) (le_succ steps)) (cast_nonneg scale)
    have hmul := mul_le_mul_of_nonneg_right (h.exact_le.trans hst) (cast_nonneg factor)
    push_cast
    linarith

theorem div (h : Tracks P steps scale K) {d : ℕ} (hdiv : 0 < d)
    (hge : P.one ≤ scale / d) : Tracks P (steps + 1) (scale / d) (K / d) where
  one_le := hge
  lt_ten := lt_of_le_of_lt (div_le_self _ _) h.lt_ten
  le_exact := cast_div_le.trans (div_le_div_of_nonneg_right h.le_exact (cast_nonneg d))
  exact_le := by
    have hpos : (0 : ℚ) < P.one := by exact_mod_cast one_pos P
    have hdiv' : (0 : ℚ) < d := by exact_mod_cast hdiv
    have hpow : (0 : ℚ) ≤ (1 + 1 / P.one) ^ steps := pow_nonneg (zero_le_one.trans (base_ge P)) steps
    -- The fraction that is lost is below one, which is a small part of the quotient.
    have hlost : (scale : ℚ) / d ≤ (scale / d : ℕ) * (1 + 1 / P.one) := by
      have hlt : (scale : ℚ) < d * ((scale / d : ℕ) + 1) := by
        exact_mod_cast lt_mul_div_succ scale hdiv
      have hge' : (1 : ℚ) ≤ (scale / d : ℕ) * (1 / P.one) := by
        rw [mul_one_div, le_div_iff₀ hpos, one_mul]
        exact_mod_cast hge
      rw [div_le_iff₀ hdiv']
      nlinarith
    calc K / d ≤ scale * (1 + 1 / P.one) ^ steps / d :=
          div_le_div_of_nonneg_right h.exact_le hdiv'.le
      _ = scale / d * (1 + 1 / P.one) ^ steps := by ring
      _ ≤ (scale / d : ℕ) * (1 + 1 / P.one) * (1 + 1 / P.one) ^ steps :=
          mul_le_mul_of_nonneg_right hlost hpow
      _ = (scale / d : ℕ) * (1 + 1 / P.one) ^ (steps + 1) := by ring

end Tracks

def Printer.Supported (P : Printer) : Prop := P = printerF32 ∨ P = printerF64

section

variable {P : Printer}

theorem ten_mul_one_lt (hP : P.Supported) : 10 * P.one < 2 ^ P.wideBits := by
  rcases hP with rfl | rfl <;> decide

variable {n raw : ℕ}

theorem scaleUp_tracks (hP : P.Supported) {steps scale : ℕ} {K : ℚ} (d : ℤ)
    (h : Tracks P steps scale K) :
    Tracks P (steps + n) (P.scaleUp n scale d).1 (K * 2 ^ n * 10 ^ (d - (P.scaleUp n scale d).2)) := by
  induction n generalizing steps scale K d with
  | zero => simpa [scaleUp] using h
  | succ n ih =>
    have hten := ten_mul_one_lt hP
    have hhalf : (10 * P.one) >>> 1 = 5 * P.one := by
      omega
    rw [scaleUp]
    split
    · next hge =>
      have hst := ih (d + 1) (h.div (by decide) (show P.one ≤ scale / 5 by omega))
      rw [show steps + (n + 1) = steps + 1 + n by omega]
      convert hst using 1
      rw [show d + 1 - (P.scaleUp n (scale / 5) (d + 1)).2 =
        (d - (P.scaleUp n (scale / 5) (d + 1)).2) + 1 by ring, zpow_add_one₀ (by norm_num)]
      ring
    · next hlt =>
      have hsh : scale <<< 1 % 2 ^ P.wideBits = scale * 2 := by
        rw [shiftLeft_eq, mod_eq_of_lt (by omega)]
      have hst := ih d (h.mul (show 0 < 2 by decide) (by omega))
      rw [hsh, show steps + (n + 1) = steps + 1 + n by omega]
      convert hst using 1
      ring

theorem scaleDown_tracks (hP : P.Supported) {steps scale : ℕ} {K : ℚ} (d : ℤ)
    (h : Tracks P steps scale K) :
    Tracks P (steps + n) (P.scaleDown n scale d).1
      (K / 2 ^ n * 10 ^ (d - (P.scaleDown n scale d).2)) := by
  induction n generalizing steps scale K d with
  | zero => simpa [scaleDown] using h
  | succ n ih =>
    have hten := ten_mul_one_lt hP
    rw [scaleDown, shiftRight_eq_div_pow]
    split
    · next hlt =>
      have hmod : scale * 5 % 2 ^ P.wideBits = scale * 5 := mod_eq_of_lt (by omega)
      have hst := ih (d - 1) (h.mul (show 0 < 5 by decide) (by omega))
      rw [hmod, show steps + (n + 1) = steps + 1 + n by omega]
      convert hst using 1
      rw [show d - 1 - (P.scaleDown n (scale * 5) (d - 1)).2 =
        (d - (P.scaleDown n (scale * 5) (d - 1)).2) - 1 by ring, zpow_sub_one₀ (by norm_num)]
      ring
    · next hge =>
      have hst := ih d (h.div (show 0 < 2 by decide) (show P.one ≤ scale / 2 by omega))
      rw [show steps + (n + 1) = steps + 1 + n by omega]
      convert hst using 1
      ring

def Printer.exactScale (P : Printer) (raw : ℕ) : ℚ :=
  2 ^ P.numScaleBits * 2 ^ P.binaryExponent raw * 10 ^ (-(P.wideScale raw).2)

theorem one_eq (P : Printer) : P.one = 2 ^ P.numScaleBits * 2 ^ P.FP.integerBits := pow_add _ _ _

theorem wideScale_tracks (hP : P.Supported) (raw : ℕ) :
    Tracks P (P.binaryExponent raw).natAbs (P.wideScale raw).1
      (P.exactScale raw * 2 ^ P.FP.integerBits) := by
  have hone : (P.one : ℚ) = 2 ^ P.numScaleBits * 2 ^ P.FP.integerBits := by
    rw [one_eq]
    push_cast
    rfl
  rw [exactScale, wideScale]
  split
  · next hpos =>
    have h := scaleUp_tracks hP (n := (P.binaryExponent raw).toNat) 0 (Tracks.start P)
    rw [zero_add, show (P.binaryExponent raw).toNat = (P.binaryExponent raw).natAbs by
      omega] at h
    have hpow : (2 : ℚ) ^ P.binaryExponent raw = 2 ^ (P.binaryExponent raw).natAbs := by
      rw [← zpow_natCast]
      congr 1
      omega
    rw [hpow, show (P.binaryExponent raw).toNat = (P.binaryExponent raw).natAbs by omega]
    convert h using 1
    rw [hone]
    ring_nf
  · next hneg =>
    have h := scaleDown_tracks hP (n := (-P.binaryExponent raw).toNat) 0 (Tracks.start P)
    rw [zero_sub, zero_add, show (-P.binaryExponent raw).toNat = (P.binaryExponent raw).natAbs by
      omega] at h
    have hpow : (2 : ℚ) ^ P.binaryExponent raw = (2 ^ (P.binaryExponent raw).natAbs)⁻¹ := by
      rw [← zpow_natCast, ← zpow_neg]
      congr 1
      omega
    rw [hpow, show (-P.binaryExponent raw).toNat = (P.binaryExponent raw).natAbs by omega]
    convert h using 1
    rw [hone]
    ring

theorem pow_le_one_add {x : ℚ} (hx : 0 ≤ x) (hn : 2 * n * x ≤ 1) : (1 + x) ^ n ≤ 1 + 2 * n * x := by
  induction n with
  | zero => simp
  | succ n ih =>
    push_cast at hn
    have hle : 2 * n * x ≤ 1 := by nlinarith
    have hst := mul_le_mul_of_nonneg_right (ih hle) (by linarith : 0 ≤ 1 + x)
    rw [pow_succ]
    push_cast
    nlinarith

theorem binaryExponent_bounds (hP : P.Supported) (hraw : raw ≤ P.FP.maxExponentValue) :
    (P.binaryExponent raw).natAbs ≤ 1100 := by
  rw [binaryExponent]
  rcases hP with rfl | rfl
  · have hmax : printerF32.FP.maxExponentValue = 255 := rfl
    have hbias : printerF32.FP.exponentBias = 127 := rfl
    have hbts : printerF32.FP.numMantissaBits = 23 := rfl
    omega
  · have hmax : printerF64.FP.maxExponentValue = 2047 := rfl
    have hbias : printerF64.FP.exponentBias = 1023 := rfl
    have hbts : printerF64.FP.numMantissaBits = 52 := rfl
    omega

theorem scale_eq (hP : P.Supported) (raw : ℕ) :
    P.scale raw = (P.wideScale raw).1 / 2 ^ P.FP.integerBits := by
  have hlt := (wideScale_tracks hP raw).lt_ten
  have hten := ten_mul_one_lt hP
  rw [scale, shiftRight_eq_div_pow, mod_eq_of_lt]
  refine Nat.div_lt_of_lt_mul ?_
  rw [← pow_add]
  have hwide : P.FP.integerBits + P.FP.integerBits = P.wideBits := (two_mul _).symm
  rw [hwide]
  omega

theorem scale_bounds (hP : P.Supported) (raw : ℕ) :
    2 ^ P.numScaleBits ≤ P.scale raw ∧ P.scale raw < 10 * 2 ^ P.numScaleBits := by
  have h := wideScale_tracks hP raw
  have hone := h.one_le
  have hten := h.lt_ten
  rw [one_eq] at hone hten
  rw [scale_eq hP]
  constructor
  · rwa [le_div_iff_mul_le (Nat.two_pow_pos _)]
  · refine Nat.div_lt_of_lt_mul ?_
    rwa [mul_comm (2 ^ P.FP.integerBits), mul_assoc]

theorem scale_le_exactScale (hP : P.Supported) (raw : ℕ) : (P.scale raw : ℚ) ≤ P.exactScale raw := by
  have hpos : (0 : ℚ) < 2 ^ P.FP.integerBits := by positivity
  have hle : (P.scale raw : ℚ) * 2 ^ P.FP.integerBits ≤ (P.wideScale raw).1 := by
    rw [scale_eq hP]
    exact_mod_cast div_mul_le_self _ _
  exact le_of_mul_le_mul_right (hle.trans (wideScale_tracks hP raw).le_exact) hpos

theorem exactScale_le (hP : P.Supported) (hraw : raw ≤ P.FP.maxExponentValue) :
    P.exactScale raw ≤ P.scale raw + 2 := by
  have hpos : (0 : ℚ) < 2 ^ P.FP.integerBits := by positivity
  have hone_pos : (0 : ℚ) < P.one := by exact_mod_cast Tracks.one_pos P
  have hste : ((P.binaryExponent raw).natAbs : ℚ) ≤ 1100 := by
    exact_mod_cast binaryExponent_bounds hP hraw
  -- The error of all truncations but the last one is below one.
  have hsm : (P.scale raw + 1) * (2200 * (1 / P.one)) ≤ (1 : ℚ) := by
    have hle : (P.scale raw + 1) * 2200 ≤ P.one := by
      obtain ⟨-, hten⟩ := scale_bounds hP raw
      have hwd : 22000 ≤ 2 ^ P.FP.integerBits := by
        rcases hP with rfl | rfl <;> decide
      rw [one_eq]
      nlinarith [Nat.two_pow_pos P.numScaleBits]
    have hle' : ((P.scale raw + 1) * 2200 : ℚ) ≤ P.one := by exact_mod_cast hle
    rw [← mul_assoc, mul_one_div, div_le_one hone_pos]
    exact hle'
  have hlt : ((P.wideScale raw).1 : ℚ) ≤ (P.scale raw + 1) * 2 ^ P.FP.integerBits := by
    have h := (lt_mul_div_succ (P.wideScale raw).1 (Nat.two_pow_pos P.FP.integerBits)).le
    rw [← scale_eq hP, mul_comm] at h
    exact_mod_cast h
  have hb : (1 + 1 / (P.one : ℚ)) ^ (P.binaryExponent raw).natAbs ≤ 1 + 2200 * (1 / P.one) := by
    have hinv : (0 : ℚ) ≤ 1 / P.one := by positivity
    have hst : 2 * ((P.binaryExponent raw).natAbs : ℚ) * (1 / P.one) ≤ 2200 * (1 / P.one) :=
      mul_le_mul_of_nonneg_right (by linarith) hinv
    have hone : 2200 * (1 / (P.one : ℚ)) ≤ 1 := by
      have hsca : (1 : ℚ) ≤ P.scale raw + 1 := by
        linarith
      exact (le_mul_of_one_le_left (by positivity) hsca).trans hsm
    exact (pow_le_one_add hinv (hst.trans hone)).trans (by linarith)
  refine le_of_mul_le_mul_right ?_ hpos
  calc P.exactScale raw * 2 ^ P.FP.integerBits
      ≤ (P.wideScale raw).1 * (1 + 1 / (P.one : ℚ)) ^ (P.binaryExponent raw).natAbs :=
        (wideScale_tracks hP raw).exact_le
    _ ≤ (P.scale raw + 1) * 2 ^ P.FP.integerBits * (1 + 2200 * (1 / P.one)) :=
        mul_le_mul hlt hb (pow_nonneg (zero_le_one.trans (Tracks.base_ge P)) _) (by positivity)
    _ = ((P.scale raw + 1) + (P.scale raw + 1) * (2200 * (1 / P.one))) * 2 ^ P.FP.integerBits := by ring
    _ ≤ (P.scale raw + 2) * 2 ^ P.FP.integerBits := mul_le_mul_of_nonneg_right (by linarith) hpos.le

def Printer.exponentLimit (P : Printer) : ℕ := if P.FP.integerBits = 32 then 60 else 330

theorem two_pow_natAbs_le (hP : P.Supported) (hraw : raw ≤ P.FP.maxExponentValue) :
    2 ^ (P.binaryExponent raw).natAbs ≤ 10 ^ (P.exponentLimit - 2) := by
  rw [binaryExponent]
  rcases hP with rfl | rfl
  · have hmax : printerF32.FP.maxExponentValue = 255 := rfl
    have hbias : printerF32.FP.exponentBias = 127 := rfl
    have hbts : printerF32.FP.numMantissaBits = 23 := rfl
    exact (Nat.pow_le_pow_right (by decide) (show _ ≤ 150 by omega)).trans (by decide +kernel)
  · have hmax : printerF64.FP.maxExponentValue = 2047 := rfl
    have hbias : printerF64.FP.exponentBias = 1023 := rfl
    have hbts : printerF64.FP.numMantissaBits = 52 := rfl
    exact (Nat.pow_le_pow_right (by decide) (show _ ≤ 1075 by omega)).trans (by decide +kernel)

theorem wideScale_exponent_bounds (hP : P.Supported) (hraw : raw ≤ P.FP.maxExponentValue) :
    -(P.exponentLimit : ℤ) ≤ (P.wideScale raw).2 ∧ (P.wideScale raw).2 ≤ P.exponentLimit := by
  have hpow : (1 : ℚ) ≤ 2 ^ P.numScaleBits := one_le_pow₀ (by norm_num)
  have hten : (1 : ℚ) < 10 := by norm_num
  have htwo : (1 : ℚ) ≤ 2 := by norm_num
  have hten_pos : ∀ z : ℤ, (0 : ℚ) < 10 ^ z := fun z => zpow_pos (by norm_num) z
  obtain ⟨hlo, hup⟩ := scale_bounds hP raw
  have hlo' : (2 : ℚ) ^ P.numScaleBits ≤ P.scale raw := by exact_mod_cast hlo
  have hup' : (P.scale raw : ℚ) ≤ 10 * 2 ^ P.numScaleBits := by exact_mod_cast hup.le
  have hexact := exactScale_le hP hraw
  have hexact' := scale_le_exactScale hP raw
  -- The power of two is between two adjacent powers of ten, up to one more factor.
  have hle : (10 : ℚ) ^ (P.wideScale raw).2 ≤ 2 ^ P.binaryExponent raw := by
    have h : (2 : ℚ) ^ P.numScaleBits * 1 ≤
        2 ^ P.numScaleBits * (2 ^ P.binaryExponent raw * 10 ^ (-(P.wideScale raw).2)) := by
      rw [mul_one, ← mul_assoc]
      exact hlo'.trans hexact'
    have h' := le_of_mul_le_mul_left h (by linarith)
    rwa [zpow_neg, ← div_eq_mul_inv, one_le_div (hten_pos _)] at h'
  have hge : (2 : ℚ) ^ P.binaryExponent raw ≤ 10 ^ ((P.wideScale raw).2 + 2) := by
    have h : (2 : ℚ) ^ P.numScaleBits * (2 ^ P.binaryExponent raw * 10 ^ (-(P.wideScale raw).2)) ≤
        2 ^ P.numScaleBits * 100 := by
      rw [← mul_assoc]
      refine hexact.trans ?_
      linarith
    have h' := le_of_mul_le_mul_left h (by linarith)
    rw [zpow_neg, ← div_eq_mul_inv, div_le_iff₀ (hten_pos _)] at h'
    refine h'.trans (le_of_eq ?_)
    rw [zpow_add₀ (by norm_num)]
    ring
  have habs := two_pow_natAbs_le hP hraw
  have hlim : 2 ≤ P.exponentLimit := by
    rcases hP with rfl | rfl <;> decide
  have habs' : (2 : ℚ) ^ ((P.binaryExponent raw).natAbs : ℤ) ≤ 10 ^ ((P.exponentLimit - 2 : ℕ) : ℤ) := by
    exact_mod_cast habs
  constructor
  · have hinv : (10 : ℚ) ^ (-((P.exponentLimit - 2 : ℕ) : ℤ)) ≤ 10 ^ ((P.wideScale raw).2 + 2) := by
      refine le_trans ?_ hge
      have h := inv_anti₀ (zpow_pos (by norm_num) _) habs'
      rw [← zpow_neg, ← zpow_neg] at h
      exact h.trans (zpow_le_zpow_right₀ htwo (by omega))
    have h := (zpow_le_zpow_iff_right₀ hten).1 hinv
    omega
  · have hle' : (10 : ℚ) ^ (P.wideScale raw).2 ≤ 10 ^ ((P.exponentLimit - 2 : ℕ) : ℤ) :=
      hle.trans ((zpow_le_zpow_right₀ htwo (by omega)).trans habs')
    have h := (zpow_le_zpow_iff_right₀ hten).1 hle'
    omega

theorem decimalExponent_eq (hP : P.Supported) (hraw : raw ≤ P.FP.maxExponentValue) :
    P.decimalExponent raw = (P.wideScale raw).2 := by
  obtain ⟨hlo, hup⟩ := wideScale_exponent_bounds hP hraw
  rcases hP with rfl | rfl
  · have hlim : printerF32.exponentLimit = 60 := rfl
    exact Int.bmod_eq_of_le (by rw [hlim] at hlo; exact le_trans (by decide) hlo)
      (by rw [hlim] at hup; exact lt_of_le_of_lt hup (by decide))
  · have hlim : printerF64.exponentLimit = 330 := rfl
    exact Int.bmod_eq_of_le (by rw [hlim] at hlo; exact le_trans (by decide) hlo)
      (by rw [hlim] at hup; exact lt_of_le_of_lt hup (by decide))

/-- The inequality for the lower bound of a power of two, with integers. -/
def tightScale (P : Printer) (raw : ℕ) : Bool :=
  let (e, d) := (P.binaryExponent raw, (P.wideScale raw).2)
  let A := 2 ^ P.FP.numMantissaBits * 160
  (A - 40) * 2 ^ P.numScaleBits * 2 ^ e.toNat * 10 ^ (-d).toNat ≤
    (A - 35) * P.scale raw * 2 ^ (-e).toNat * 10 ^ d.toNat

theorem tightScale_f32 : ∀ raw < 255, tightScale printerF32 raw = true := by
  decide +kernel

theorem exactScale_eq (P : Printer) (raw : ℕ) :
    P.exactScale raw * (2 ^ (-P.binaryExponent raw).toNat * 10 ^ ((P.wideScale raw).2).toNat) =
      2 ^ P.numScaleBits * 2 ^ (P.binaryExponent raw).toNat * 10 ^ (-(P.wideScale raw).2).toNat := by
  have htwo : (2 : ℚ) ^ P.binaryExponent raw * 2 ^ (-P.binaryExponent raw).toNat =
      2 ^ (P.binaryExponent raw).toNat := by
    rw [← zpow_natCast, ← zpow_natCast, ← zpow_add₀ (by norm_num)]
    congr 1
    omega
  have hten : (10 : ℚ) ^ (-(P.wideScale raw).2) * 10 ^ ((P.wideScale raw).2).toNat =
      10 ^ (-(P.wideScale raw).2).toNat := by
    rw [← zpow_natCast, ← zpow_natCast, ← zpow_add₀ (by norm_num)]
    congr 1
    omega
  rw [exactScale, ← htwo, ← hten]
  ring

/-- The truncated scale moves the lower bound by less than the part of a step that was left. -/
theorem lower_scaled (hP : P.Supported) (hraw : raw ≤ P.FP.maxExponentValue) {A : ℚ}
    (hA : 35 ≤ A) {st : ℚ} (hst : 2 * A ≤ (st - 35) * 2 ^ P.numScaleBits) (hst' : 35 ≤ st) :
    (A - st) * P.exactScale raw ≤ (A - 35) * P.scale raw := by
  have hlo : (2 : ℚ) ^ P.numScaleBits ≤ P.exactScale raw := by
    refine le_trans ?_ (scale_le_exactScale hP raw)
    exact_mod_cast (scale_bounds hP raw).1
  have hexact := exactScale_le hP hraw
  nlinarith

/-- A mantissa is moved by less than a half of the distance to the number below. -/
theorem lower_scaled_half (hP : P.Supported) (hraw : raw ≤ P.FP.maxExponentValue) {A : ℕ}
    (hA : 160 ≤ A) (hA' : A ≤ 2 ^ (P.FP.numMantissaBits + 1) * 160) :
    ((A : ℚ) - 80) * P.exactScale raw ≤ (A - 35) * P.scale raw := by
  have hA_cast : (160 : ℚ) ≤ A := by exact_mod_cast hA
  refine lower_scaled hP hraw (by linarith) ?_ (by norm_num)
  have hle : 2 * A ≤ 45 * 2 ^ P.numScaleBits := by
    refine (mul_le_mul_left 2 hA').trans ?_
    rcases hP with rfl | rfl <;> decide
  have hle' : (2 : ℚ) * A ≤ 45 * 2 ^ P.numScaleBits := by exact_mod_cast hle
  linarith

theorem lower_scaled_quarter (hP : P.Supported) (hraw : raw < P.FP.maxExponentValue) :
    ((2 ^ P.FP.numMantissaBits * 160 : ℕ) - 40 : ℚ) * P.exactScale raw ≤
      ((2 ^ P.FP.numMantissaBits * 160 : ℕ) - 35) * P.scale raw := by
  rcases hP with rfl | rfl
  · have htig : tightScale printerF32 raw = true := tightScale_f32 raw hraw
    simp only [tightScale, decide_eq_true_iff] at htig
    have hexact := exactScale_eq printerF32 raw
    obtain ⟨A, hA⟩ : ∃ A, A = 2 ^ printerF32.FP.numMantissaBits * 160 := ⟨_, rfl⟩
    have hA_ge : 40 ≤ A := by
      rw [hA]
      decide
    rw [← hA] at htig ⊢
    have hpos : (0 : ℚ) < 2 ^ (-printerF32.binaryExponent raw).toNat *
        10 ^ ((printerF32.wideScale raw).2).toNat := by positivity
    have htig' := (cast_le (α := ℚ)).2 htig
    push_cast [cast_sub hA_ge, cast_sub (show 35 ≤ A by omega)] at htig'
    refine le_of_mul_le_mul_right ?_ hpos
    rw [mul_assoc, hexact]
    linarith
  · refine lower_scaled (.inr rfl) hraw.le ?_ ?_ (by norm_num)
    · norm_num [printerF64, floatPropertiesF64]
    · norm_num [printerF64, floatPropertiesF64, numScaleBits, extraMantissaShift]

end

end USprache.Ustlib.FloatPrinting
