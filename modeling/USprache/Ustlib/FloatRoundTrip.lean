import USprache.Ustlib.PrintedDigits

/-!
# Printing and parsing of floating-point numbers

The printed number is between the middles to the numbers below and above, so that the parser
rounds it to the number that was printed.
-/

namespace USprache.Ustlib.FloatPrinting

open CharType Library NumberParsing FloatParsing Printer Nat FloatProperties

variable {P : Printer}

theorem Printer.Supported.properties (hP : P.Supported) : P.FP.Supported := by
  rcases hP with rfl | rfl
  · exact .inl rfl
  · exact .inr rfl

variable (T : FloatType)

theorem supported_printer : (printer T).Supported := by
  cases T with
  | f32 => exact .inl rfl
  | f64 => exact .inr rfl

theorem printer_properties : (printer T).FP = T.properties := by
  cases T <;> rfl

/-- The mantissa with its leading bit, in units of the lowest bit of its exponent. -/
def mantissaOf (FP : FloatProperties) (b : ℕ) : ℕ :=
  if b / 2 ^ FP.numMantissaBits = 0 then 2 * (b % 2 ^ FP.numMantissaBits)
  else 2 ^ FP.numMantissaBits + b % 2 ^ FP.numMantissaBits

theorem mantissaOf_lt (FP : FloatProperties) (b : ℕ) :
    mantissaOf FP b < 2 ^ (FP.numMantissaBits + 1) := by
  rw [mantissaOf]
  split <;> omega

theorem mantissaOf_pos (FP : FloatProperties) {b : ℕ} (hb : b ≠ 0) : 0 < mantissaOf FP b := by
  have hsp := div_add_mod b (2 ^ FP.numMantissaBits)
  rw [mantissaOf]
  split
  · next hz =>
    rw [hz] at hsp
    omega
  · exact Nat.add_pos_left (Nat.two_pow_pos _) _

def unit (P : Printer) (raw : ℕ) : ℚ := 2 ^ P.binaryExponent raw / 160

theorem unit_pos (P : Printer) (raw : ℕ) : 0 < unit P raw :=
  div_pos (zpow_pos (by norm_num) _) (by norm_num)

theorem magnitude_eq_unit (P : Printer) (b : ℕ) :
    P.FP.magnitude b = (mantissaOf P.FP b * 160 : ℕ) * unit P (b / 2 ^ P.FP.numMantissaBits) := by
  have hunit : ∀ raw, 160 * unit P raw = 2 ^ P.binaryExponent raw := by
    intro raw
    rw [unit]
    ring
  rw [cast_mul, mul_assoc, show ((160 : ℕ) : ℚ) = 160 by norm_num, hunit, magnitude,
    mantissaOf]
  split
  · next hz =>
    rw [hz, binaryExponent, show (1 - P.FP.exponentBias - P.FP.numMantissaBits : ℤ) =
      1 + ((0 : ℕ) - P.FP.exponentBias - P.FP.numMantissaBits) by push_cast; ring,
      zpow_add₀ (by norm_num)]
    push_cast
    ring
  · push_cast
    rfl

theorem unit_eq (P : Printer) (E : ℕ) : 160 * unit P (E + 1) = P.FP.ulp E := by
  rw [unit, binaryExponent, ulp]
  push_cast
  ring

theorem unit_zero_le (P : Printer) : 160 * unit P 0 ≤ P.FP.ulp 0 := by
  have h := unit_eq P 0
  have hmono : unit P 0 ≤ unit P (0 + 1) := by
    refine div_le_div_of_nonneg_right ?_ (by norm_num)
    refine zpow_le_zpow_right₀ (by norm_num) ?_
    rw [binaryExponent, binaryExponent]
    omega
  linarith

theorem multiple_div (FP : FloatProperties) {E Q : ℕ} (hQ : Q < 2 ^ (FP.numMantissaBits + 1))
    (h : E = 0 ∨ 2 ^ FP.numMantissaBits ≤ Q) :
    (E = 0 ∧ (E * 2 ^ FP.numMantissaBits + Q) / 2 ^ FP.numMantissaBits = 0) ∨
      (E * 2 ^ FP.numMantissaBits + Q) / 2 ^ FP.numMantissaBits = E + 1 := by
  have hpow : 0 < 2 ^ FP.numMantissaBits := Nat.two_pow_pos _
  rw [add_comm, add_mul_div_right _ _ hpow]
  by_cases hlow : Q < 2 ^ FP.numMantissaBits
  · rw [div_eq_of_lt hlow]
    omega
  · have hdiv : Q / 2 ^ FP.numMantissaBits = 1 := by
      rw [Nat.div_eq_iff hpow]
      omega
    omega

theorem unit_le_ulp (P : Printer) {E Q : ℕ} (hQ : Q < 2 ^ (P.FP.numMantissaBits + 1))
    (h : E = 0 ∨ 2 ^ P.FP.numMantissaBits ≤ Q) :
    160 * unit P ((E * 2 ^ P.FP.numMantissaBits + Q) / 2 ^ P.FP.numMantissaBits) ≤ P.FP.ulp E := by
  rcases multiple_div P.FP hQ h with ⟨rfl, hdiv⟩ | hdiv
  · rw [hdiv]
    exact unit_zero_le P
  · rw [hdiv, unit_eq]

theorem magnitude_succ_ge (P : Printer) (b : ℕ) :
    P.FP.magnitude b + 160 * unit P (b / 2 ^ P.FP.numMantissaBits) ≤ P.FP.magnitude (b + 1) := by
  obtain ⟨E, Q, rfl, hQ, h⟩ := P.FP.exists_eq_multiple b
  have hsucc : P.FP.magnitude (E * 2 ^ P.FP.numMantissaBits + Q + 1) = (Q + 1 : ℕ) * P.FP.ulp E :=
    P.FP.magnitude_eq hQ (h.imp_right fun h => h.trans (le_succ Q))
  have hunit := unit_le_ulp P hQ h
  rw [hsucc, P.FP.magnitude_eq hQ.le h]
  push_cast
  linarith

/-- The distance to the number below, which is smaller for a power of two. -/
theorem magnitude_pred_le (P : Printer) (a : ℕ) :
    P.FP.magnitude a + 160 * unit P ((a + 1) / 2 ^ P.FP.numMantissaBits) ≤ P.FP.magnitude (a + 1) ∨
      mantissaOf P.FP (a + 1) = 2 ^ P.FP.numMantissaBits ∧
        P.FP.magnitude a + 80 * unit P ((a + 1) / 2 ^ P.FP.numMantissaBits) ≤
          P.FP.magnitude (a + 1) := by
  obtain ⟨E, Q, rfl, hQ, h⟩ := P.FP.exists_eq_multiple a
  have hsucc : P.FP.magnitude (E * 2 ^ P.FP.numMantissaBits + Q + 1) = (Q + 1 : ℕ) * P.FP.ulp E :=
    P.FP.magnitude_eq hQ (h.imp_right fun h => h.trans (le_succ Q))
  rw [hsucc, P.FP.magnitude_eq hQ.le h]
  by_cases hla : Q + 1 < 2 ^ (P.FP.numMantissaBits + 1)
  · left
    have hunit := unit_le_ulp P hla (h.imp_right fun h => h.trans (le_succ Q))
    rw [add_assoc]
    push_cast
    linarith
  · right
    have hpow : 0 < 2 ^ P.FP.numMantissaBits := Nat.two_pow_pos _
    have heq : E * 2 ^ P.FP.numMantissaBits + Q + 1 = (E + 2) * 2 ^ P.FP.numMantissaBits := by
      rw [add_mul]
      omega
    have hdiv : (E * 2 ^ P.FP.numMantissaBits + Q + 1) / 2 ^ P.FP.numMantissaBits = E + 1 + 1 := by
      rw [heq, Nat.mul_div_cancel _ hpow]
    have hulp : P.FP.ulp (E + 1) = 2 * P.FP.ulp E := by
      rw [ulp, ulp, ← zpow_one_add₀ (by norm_num)]
      push_cast
      ring_nf
    refine ⟨?_, ?_⟩
    · rw [mantissaOf, if_neg (by omega), heq, mul_mod_left, add_zero]
    · have hunit := unit_eq P (E + 1)
      rw [hdiv]
      push_cast
      linarith

theorem integerBits_eq (hP : P.Supported) :
    2 ^ P.FP.integerBits = 16 * 2 ^ P.numScaleBits ∧ 2 ^ P.FP.integerBits ≤ 10 ^ P.maxDecimalDigits ∧
      2 ^ (P.FP.numMantissaBits + 1) * 160 + 75 < 2 ^ P.FP.integerBits ∧ P.maxDecimalDigits ≤ 20 := by
  rcases hP with rfl | rfl <;> decide

theorem scaledMantissa_eq (hP : P.Supported) (b : ℕ) : (if b / 2 ^ P.FP.numMantissaBits = 0 then
        b % 2 ^ P.FP.numMantissaBits * (extraDecimalScale <<< (extraMantissaShift + 1)) %
          2 ^ P.FP.integerBits
      else
        (2 ^ P.FP.numMantissaBits ||| b % 2 ^ P.FP.numMantissaBits) *
          (extraDecimalScale <<< extraMantissaShift) % 2 ^ P.FP.integerBits) =
      mantissaOf P.FP b * 160 := by
  obtain ⟨-, -, hsz, -⟩ := integerBits_eq hP
  have hlt : mantissaOf P.FP b * 160 < 2 ^ P.FP.integerBits := by
    have h := mul_le_mul_right 160 (mantissaOf_lt P.FP b).le
    omega
  have hor := two_pow_add_eq_or_of_lt (mod_lt b (Nat.two_pow_pos P.FP.numMantissaBits)) 1
  rw [mul_one] at hor
  rw [mantissaOf] at hlt ⊢
  split
  · next hz =>
    rw [show extraDecimalScale <<< (extraMantissaShift + 1) = 320 from rfl, mod_eq_of_lt (by omega)]
    ring
  · next hz =>
    rw [if_neg hz] at hlt
    rw [← hor, show extraDecimalScale <<< extraMantissaShift = 160 from rfl, mod_eq_of_lt hlt]

theorem exactScale_unit (hP : P.Supported) {raw : ℕ} (hraw : raw ≤ P.FP.maxExponentValue) :
    P.exactScale raw * 10 ^ (P.decimalExponent raw - extraDecimalExponent) =
      unit P raw * 2 ^ P.FP.integerBits := by
  have hbts : (2 : ℚ) ^ P.FP.integerBits = 16 * 2 ^ P.numScaleBits := by
    exact_mod_cast (integerBits_eq hP).1
  have hten : (10 : ℚ) ^ (-(P.wideScale raw).2) * 10 ^ ((P.wideScale raw).2 - (extraDecimalExponent : ℤ)) =
      1 / 10 := by
    rw [← zpow_add₀ (by norm_num), show -(P.wideScale raw).2 + ((P.wideScale raw).2 - (extraDecimalExponent : ℤ)) =
      -1 by rw [extraDecimalExponent]; push_cast; ring]
    norm_num
  rw [decimalExponent_eq hP hraw, exactScale, mul_assoc, hten, unit, hbts]
  ring

theorem bounds_apart (hP : P.Supported) (raw : ℕ) {A : ℕ} (hA : 160 ≤ A)
    (hA' : A ≤ 2 ^ (P.FP.numMantissaBits + 1) * 160) :
    (A - 35) * P.scale raw / 2 ^ P.FP.integerBits < (A + 75) * P.scale raw / 2 ^ P.FP.integerBits ∧
      (A + 75) * P.scale raw / 2 ^ P.FP.integerBits < 10 ^ P.maxDecimalDigits := by
  obtain ⟨hbts, hmax, hsz, -⟩ := integerBits_eq hP
  obtain ⟨hlo, hup⟩ := scale_bounds hP raw
  have hpos : 0 < 2 ^ P.FP.integerBits := Nat.two_pow_pos _
  constructor
  · have hsum : (A + 75) * P.scale raw = (A - 35) * P.scale raw + 110 * P.scale raw := by
      rw [← add_mul]
      congr 1
      omega
    calc (A - 35) * P.scale raw / 2 ^ P.FP.integerBits
        < (A - 35) * P.scale raw / 2 ^ P.FP.integerBits + 1 := lt_succ_self _
      _ = ((A - 35) * P.scale raw + 2 ^ P.FP.integerBits) / 2 ^ P.FP.integerBits :=
          (add_div_right _ hpos).symm
      _ ≤ (A + 75) * P.scale raw / 2 ^ P.FP.integerBits := Nat.div_le_div_right (by omega)
  · refine lt_of_lt_of_le (Nat.div_lt_of_lt_mul ?_) hmax
    exact mul_lt_mul'' (by omega) (by omega)

structure Printed (P : Printer) (raw A : ℕ) (digits : List ℕ) (y : ℚ) : Prop where
  lt_ten : ∀ d ∈ digits, d < 10
  length_le : digits.length ≤ 20
  pos : 0 < ofDigits 10 digits
  value : y = (ofDigits 10 digits : ℕ) * 10 ^ (P.decimalExponent raw - extraDecimalExponent)
  lt_upper : y < (A + 80) * unit P raw
  gt_lower : (A - 80) * unit P raw < y
  gt_lower_of_power : A = 2 ^ P.FP.numMantissaBits * 160 → (A - 40) * unit P raw < y

theorem shortestDigits_printed (hP : P.Supported) {raw : ℕ} (hraw : raw < P.FP.maxExponentValue) {A : ℕ}
    (hA : 160 ≤ A) (hA' : A ≤ 2 ^ (P.FP.numMantissaBits + 1) * 160) :
    ∃ y, Printed P raw A (P.shortestDigits A (P.scale raw)) y := by
  obtain ⟨hlt, hmax⟩ := bounds_apart hP raw hA hA'
  obtain ⟨hten, hlen, hgt, hle⟩ := shortestDigits_spec rfl rfl hlt hmax
  obtain ⟨-, -, -, hds⟩ := integerBits_eq hP
  obtain ⟨D, hD⟩ : ∃ D, D = ofDigits 10 (P.shortestDigits A (P.scale raw)) := ⟨_, rfl⟩
  rw [← hD] at hgt hle
  have hpow : (0 : ℚ) < 2 ^ P.FP.integerBits := by positivity
  have hexp : (0 : ℚ) < 10 ^ (P.decimalExponent raw - extraDecimalExponent) := zpow_pos (by norm_num) _
  have hunit := exactScale_unit hP hraw.le
  -- The bounds as exact numbers.
  have hgt' : ((A : ℚ) - 35) * P.scale raw < D * 2 ^ P.FP.integerBits := by
    have h : (A - 35) * P.scale raw < D * 2 ^ P.FP.integerBits := (div_lt_iff_lt_mul (Nat.two_pow_pos _)).1 hgt
    have h' := (cast_lt (α := ℚ)).2 h
    rw [cast_mul, cast_sub (show 35 ≤ A by omega)] at h'
    push_cast at h'
    exact h'
  have hle' : (D : ℚ) * 2 ^ P.FP.integerBits ≤ (A + 75) * P.scale raw := by
    exact_mod_cast (le_div_iff_mul_le (Nat.two_pow_pos _)).1 hle
  have hb : ∀ h, (A - h) * P.exactScale raw ≤ (A - 35) * P.scale raw →
      (A - h) * unit P raw < D * 10 ^ (P.decimalExponent raw - extraDecimalExponent) := by
    intro h hsca
    refine lt_of_mul_lt_mul_right ?_ hpow.le
    calc (A - h) * unit P raw * 2 ^ P.FP.integerBits
        = (A - h) * P.exactScale raw * 10 ^ (P.decimalExponent raw - extraDecimalExponent) := by
          rw [mul_assoc, ← hunit, mul_assoc]
      _ < D * 2 ^ P.FP.integerBits * 10 ^ (P.decimalExponent raw - extraDecimalExponent) :=
          mul_lt_mul_of_pos_right (hsca.trans_lt hgt') hexp
      _ = D * 10 ^ (P.decimalExponent raw - extraDecimalExponent) * 2 ^ P.FP.integerBits := by ring
  refine ⟨D * 10 ^ (P.decimalExponent raw - extraDecimalExponent), hten, hlen.trans hds,
    hD ▸ lt_of_le_of_lt (zero_le _) hgt, by rw [hD], ?_, ?_, ?_⟩
  · refine lt_of_mul_lt_mul_right ?_ hpow.le
    calc (D : ℚ) * 10 ^ (P.decimalExponent raw - extraDecimalExponent) * 2 ^ P.FP.integerBits
        = D * 2 ^ P.FP.integerBits * 10 ^ (P.decimalExponent raw - extraDecimalExponent) := by ring
      _ ≤ (A + 75) * P.exactScale raw * 10 ^ (P.decimalExponent raw - extraDecimalExponent) := by
          refine mul_le_mul_of_nonneg_right (hle'.trans ?_) hexp.le
          exact mul_le_mul_of_nonneg_left (scale_le_exactScale hP raw) (by positivity)
      _ = (A + 75) * unit P raw * 2 ^ P.FP.integerBits := by rw [mul_assoc, hunit, mul_assoc]
      _ < (A + 80) * unit P raw * 2 ^ P.FP.integerBits := by
          refine mul_lt_mul_of_pos_right ?_ hpow
          exact mul_lt_mul_of_pos_right (by linarith) (unit_pos P raw)
  · exact hb 80 (lower_scaled_half hP hraw.le hA hA')
  · intro hpowe
    refine hb 40 ?_
    rw [hpowe]
    exact lower_scaled_quarter hP hraw

theorem eq_of_printed {b : ℕ} (hb : b < P.FP.infinity) {ds : List ℕ} {y : ℚ}
    (h : Printed P (b / 2 ^ P.FP.numMantissaBits) (mantissaOf P.FP b * 160) ds y) {b' : ℕ}
    (hnr : NearestEven P.FP.magnitude P.FP.infinity y b') : b' = b := by
  have hv := magnitude_eq_unit P b
  refine hnr.eq_of_between P.FP.magnitude_strictMono hb.le ?_ ?_
  · rintro a rfl
    rcases magnitude_pred_le P a with hbel | ⟨hpow, hbel⟩
    · have hgt := h.gt_lower
      linarith
    · have hgt := h.gt_lower_of_power (by rw [hpow])
      linarith
  · have hab := magnitude_succ_ge P b
    have hlt := h.lt_upper
    linarith

def IsNaN (FP : FloatProperties) (bits : ℕ) : Prop :=
  bits / 2 ^ FP.numMantissaBits % 2 ^ FP.numExponentBits = FP.maxExponentValue ∧
    bits % 2 ^ FP.numMantissaBits ≠ 0

instance (FP : FloatProperties) (bits : ℕ) : Decidable (IsNaN FP bits) :=
  inferInstanceAs (Decidable (_ ∧ _))

def unsignedBits (FP : FloatProperties) (bits : ℕ) : ℕ := bits % 2 ^ (FP.integerBits - 1)

def isNegative (FP : FloatProperties) (bits : ℕ) : Bool := bits.testBit (FP.integerBits - 1)

section

variable {FP : FloatProperties} {bits : ℕ}

theorem and_signMask_ne_zero : bits &&& FP.signMask ≠ 0 ↔ isNegative FP bits = true := by
  rw [signMask, and_two_pow, isNegative]
  cases bits.testBit (FP.integerBits - 1) <;> simp

theorem bits_eq (hFP : FP.Supported) (hbts : bits < 2 ^ FP.integerBits) :
    bits = (if isNegative FP bits then FP.signMask else 0) ||| unsignedBits FP bits := by
  have hpos := hFP.mantissa_lt
  have hsp := mod_two_pow_succ bits (FP.integerBits - 1)
  rw [Nat.sub_add_cancel (by omega), mod_eq_of_lt hbts] at hsp
  have hlt : unsignedBits FP bits < 2 ^ (FP.integerBits - 1) := mod_lt _ (Nat.two_pow_pos _)
  have hor := two_pow_add_eq_or_of_lt hlt (isNegative FP bits).toNat
  rw [add_comm] at hor
  conv_lhs => rw [hsp]
  refine hor.trans ?_
  cases isNegative FP bits <;> simp [signMask]

theorem fieldBits (hFP : FP.Supported) :
    FP.integerBits - 1 = FP.numMantissaBits + FP.numExponentBits := by
  have h := hFP.mantissa_lt
  rw [numExponentBits]
  omega

theorem exponentField_eq (hFP : FP.Supported) (bits : ℕ) :
    bits / 2 ^ FP.numMantissaBits % 2 ^ FP.numExponentBits =
      unsignedBits FP bits / 2 ^ FP.numMantissaBits := by
  rw [unsignedBits, fieldBits hFP, pow_add, mod_mul_right_div_self]

theorem mantissaField_eq (hFP : FP.Supported) (bits : ℕ) :
    bits % 2 ^ FP.numMantissaBits = unsignedBits FP bits % 2 ^ FP.numMantissaBits := by
  rw [unsignedBits, mod_mod_of_dvd]
  rw [fieldBits hFP, pow_add]
  exact dvd_mul_right _ _

end

variable {C : Type} [CharType C]

theorem stops_nil : FloatParsing.Stops ([] : List C) := fun _ h => by cases h

/-- The text of a finite number, from which the parser gets these bits whatever follows it. -/
structure ReadsAs (FP : FloatProperties) (size : SizeType) (chars : List C) (bits : ℕ) : Prop where
  text : ∃ text : FloatText C, text.chars = chars
  parse : ∀ rest, FloatParsing.Stops rest → parseFloatImpl FP size (chars ++ rest) = .ok (some bits, rest)

theorem readsAs_zero {FP : FloatProperties} (hFP : FP.Supported) (size : SizeType) (negative : Bool) :
    ReadsAs FP size ((if negative then [ofNat 45] else []) ++ [ofNat 48] : List C)
      (if negative then FP.signMask else 0) := by
  obtain ⟨text, ht⟩ : ∃ text : FloatText C, text =
    ⟨negative, Digits.single (digitText 0) (isDigit_digitText (by decide)), none, none⟩ := ⟨_, rfl⟩
  have hmag : text.magnitude = 0 := by
    have hv : decimalValue [(digitText 0 : C)] = 0 :=
      decimalValue_digits (show ∀ d ∈ [0], d < 10 by simp)
    rw [ht, FloatText.magnitude]
    simp only [Digits.single, FloatText.fractionalDigits, List.append_nil, hv, cast_zero, zero_mul]
  have hfit : text.FitsCounters FP size := by
    rw [ht]
    exact fitsCounters_of_short FP size _ (show 1 ≤ 30 by decide) (show 0 ≤ 30 by decide)
      (show -1000 ≤ (0 : ℤ) by decide) (show (0 : ℤ) ≤ 1000 by decide)
  have hexponent : text.ExponentSmall := by
    rw [ht]
    exact ⟨show -65536 < (0 : ℤ) by decide, show (0 : ℤ) < 65536 by decide⟩
  refine ⟨⟨text, by rw [ht]; rfl⟩, fun rest hrs => ?_⟩
  obtain ⟨bits, hpa, b, rfl, hnr⟩ := parseFloatImpl_correct hFP text hexponent hfit hrs
  have hz : b = 0 := by
    refine hnr.eq_of_between FP.magnitude_strictMono (zero_le _)
      (fun a ha => absurd ha.symm (succ_ne_zero a)) ?_
    have hlt := FP.magnitude_strictMono (lt_succ_self 0)
    rw [magnitude_zero] at hlt ⊢
    linarith
  rw [hz, or_zero, ht] at hpa
  exact hpa

theorem parse_infinity (FP : FloatProperties) (sz : SizeType) (negative : Bool) :
    parseFloatImpl FP sz ((if negative then [ofNat 45] else []) ++ [ofNat 105, ofNat 110, ofNat 102] :
      List C) = .ok (some ((if negative then FP.signMask else 0) ||| FP.infinity), []) := by
  have h : ∀ n, n < 0x80 → toNat (ofNat n : C) = n := toNat_ofNat
  cases negative with
  | false | true => simp [parseFloatImpl, dropWord, toLower, h, minusChar]

theorem readsAs_printed (hP : P.Supported) (sz : SizeType) {b : ℕ} (hb : b < P.FP.infinity)
    (hpos : b ≠ 0) (negative : Bool) :
    ReadsAs P.FP sz ((if negative then [ofNat 45] else []) ++
        P.numberText (P.shortestDigits (mantissaOf P.FP b * 160)
            (P.scale (b / 2 ^ P.FP.numMantissaBits)))
          (P.decimalExponent (b / 2 ^ P.FP.numMantissaBits) - extraDecimalExponent) : List C)
      ((if negative then P.FP.signMask else 0) ||| b) := by
  have hraw : b / 2 ^ P.FP.numMantissaBits < P.FP.maxExponentValue :=
    Nat.div_lt_of_lt_mul (by rwa [mul_comm])
  have hman := mantissaOf_lt P.FP b
  have hman_pos := mantissaOf_pos P.FP hpos
  obtain ⟨y, hpri⟩ := shortestDigits_printed hP hraw (show 160 ≤ mantissaOf P.FP b * 160 by omega)
    (mul_le_mul_right 160 hman.le)
  obtain ⟨hlo, hup⟩ := wideScale_exponent_bounds hP hraw.le
  have hexponent : P.exponentLimit ≤ 330 := by
    rcases hP with rfl | rfl <;> decide
  have hdec := decimalExponent_eq hP hraw.le
  obtain ⟨t, ht⟩ := exists_numberText (C := C) hP hpri.lt_ten hpri.pos hpri.length_le
    (d := P.decimalExponent (b / 2 ^ P.FP.numMantissaBits) - extraDecimalExponent)
    (by rw [extraDecimalExponent]; omega) negative
  have hlen := hpri.length_le
  have hexp := ht.exponent_le
  rw [extraDecimalExponent] at hexp
  have hfit : t.FitsCounters P.FP sz :=
    fitsCounters_of_short P.FP sz t (ht.length_integer.trans (by omega))
      (ht.length_fraction.trans (by omega)) (by omega) (by omega)
  have hchs := FloatText.chars.eq_def t
  rw [ht.negative_eq, ht.unsignedChars_eq] at hchs
  refine ⟨⟨t, hchs⟩, fun rest hrs => ?_⟩
  obtain ⟨bits, hpa, b', rfl, hnr⟩ := parseFloatImpl_correct hP.properties t
    ⟨by omega, by omega⟩ hfit hrs
  rw [ht.magnitude_eq, ← hpri.value] at hnr
  rw [eq_of_printed hb hpri hnr, hchs, ht.negative_eq] at hpa
  exact hpa

/-- The exponent field of a finite number is below that of infinity. -/
def IsFinite (FP : FloatProperties) (bits : ℕ) : Prop :=
  bits / 2 ^ FP.numMantissaBits % 2 ^ FP.numExponentBits ≠ FP.maxExponentValue

instance (FP : FloatProperties) (bits : ℕ) : Decidable (IsFinite FP bits) :=
  inferInstanceAs (Decidable (_ ≠ _))

theorem minus_eq (FP : FloatProperties) (bits : ℕ) :
    (if bits &&& FP.signMask ≠ 0 then [ofNat 45] else [] : List C) =
      if isNegative FP bits then [ofNat 45] else [] := by
  simp only [and_signMask_ne_zero]

theorem readsAs_toString8 (sz : SizeType) {bits : ℕ}
    (hbts : bits < 2 ^ T.properties.integerBits) (hfin : IsFinite T.properties bits) :
    ReadsAs T.properties sz ((printer T).toString8 bits : List C) bits := by
  obtain ⟨P, hpri⟩ : ∃ P, P = printer T := ⟨_, rfl⟩
  have hP : P.Supported := hpri ▸ supported_printer T
  have hFP := hP.properties
  rw [← printer_properties T, ← hpri] at hbts hfin ⊢
  obtain ⟨b, hb⟩ : ∃ b, b = unsignedBits P.FP bits := ⟨_, rfl⟩
  have hsp := bits_eq hFP hbts
  have hexponent := exponentField_eq hFP bits
  have hman := mantissaField_eq hFP bits
  rw [← hb] at hsp hexponent hman
  rw [IsFinite, hexponent] at hfin
  rw [toString8]
  rw [hexponent, hman, minus_eq]
  have hlt : b < P.FP.infinity := by
    have hraw' : b / 2 ^ P.FP.numMantissaBits < P.FP.maxExponentValue := by
      rw [maxExponentValue] at hfin ⊢
      omega
    exact (div_lt_iff_lt_mul (Nat.two_pow_pos _)).1 hraw'
  rw [if_neg hfin, scaledMantissa_eq hP]
  by_cases hz : b = 0
  · have hman : mantissaOf P.FP b * 160 = 0 := by
      rw [hz, mantissaOf, Nat.zero_div, if_pos rfl, zero_mod]
    rw [if_pos hman]
    rw [hz, or_zero] at hsp
    conv => arg 4; rw [hsp]
    exact readsAs_zero hFP sz _
  · have hman : mantissaOf P.FP b * 160 ≠ 0 := by
      have hpos := mantissaOf_pos P.FP hz
      omega
    rw [if_neg hman]
    conv => arg 4; rw [hsp]
    exact readsAs_printed hP sz hlt hz _

/-- Every number that is not a NaN is printed to a text that is parsed to the same bits, and the
parser consumes the whole text. -/
theorem parseFloatImpl_toString8 (T : FloatType) (size : SizeType) (bits : ℕ)
    (hbits : bits < 2 ^ T.properties.integerBits) (hnan : ¬IsNaN T.properties bits) :
    parseFloatImpl T.properties size ((printer T).toString8 bits : List C) =
      .ok (some bits, []) := by
  by_cases hfinite : IsFinite T.properties bits
  · have hparse := (readsAs_toString8 (C := C) T size hbits hfinite).parse [] stops_nil
    rwa [List.append_nil] at hparse
  · have hspecial := not_not.1 hfinite
    have hzero : bits % 2 ^ T.properties.numMantissaBits = 0 := by
      by_contra hne
      exact hnan ⟨hspecial, hne⟩
    have hFP := (supported_printer T).properties
    rw [← printer_properties T] at hbits hspecial hzero ⊢
    have hinfinity : unsignedBits (printer T).FP bits = (printer T).FP.infinity := by
      have hfields := div_add_mod (unsignedBits (printer T).FP bits) (2 ^ (printer T).FP.numMantissaBits)
      rw [← exponentField_eq hFP, ← mantissaField_eq hFP, hspecial, hzero] at hfields
      rw [← hfields]
      exact mul_comm _ _
    rw [toString8]
    rw [minus_eq, if_pos hspecial, if_pos hzero]
    conv_rhs => rw [bits_eq hFP hbits, hinfinity]
    exact parse_infinity (printer T).FP size (isNegative (printer T).FP bits)

/-- The nearest number of type `f32` to one tenth. -/
theorem parseFloatImpl_toString8_tenth :
    0x3DCCCCCD < 2 ^ FloatType.f32.properties.integerBits ∧ ¬IsNaN FloatType.f32.properties 0x3DCCCCCD ∧
      parseFloatImpl FloatType.f32.properties .bytes8 ((printer .f32).toString8 0x3DCCCCCD : List UInt8) =
        .ok (some 0x3DCCCCCD, []) := by
  have hbits : 0x3DCCCCCD < 2 ^ FloatType.f32.properties.integerBits := by decide
  have hnan : ¬IsNaN FloatType.f32.properties 0x3DCCCCCD := fun h => absurd h.1 (by decide)
  exact ⟨hbits, hnan, parseFloatImpl_toString8 .f32 .bytes8 0x3DCCCCCD hbits hnan⟩

end USprache.Ustlib.FloatPrinting
