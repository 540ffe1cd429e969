import USprache.Ustlib.NumberParsing

/-!
# Integers are printed and parsed exactly

The text of a number is a numeral with its value, so it is parsed back as a whole.
-/

namespace USprache.Ustlib.NumberParsing

open CharType Library List Int

variable {C : Type} [CharType C] {digit k : Nat} {value : Int}

theorem toNat_digitChar (h : digit < 10) : toNat (digitChar digit : C) = digit + zeroChar := by
  have hmod : (digit % 2 ^ 32 + zeroChar) % 2 ^ 32 = digit + zeroChar := by
    unfold zeroChar
    omega
  rw [digitChar, hmod]
  exact toNat_ofNat _ (by unfold zeroChar; omega)

theorem digitOf_digitChar (h : digit < 10) : digitOf (digitChar digit : C) = digit := by
  rw [digitOf, toNat_digitChar h, Nat.add_sub_cancel]

theorem isDigit_digitChar (h : digit < 10) : isDigit (digitChar digit : C) = true := by
  rw [isDigit_iff, toNat_digitChar h]
  unfold zeroChar nineChar
  omega

def digitsText (k n : Nat) : List C := (Decimal.digitsOf k n).map digitChar

def IsTextOf (n : Nat) (text : List C) : Prop := IsDecimal text ∧ decimalValue text = n

theorem decimalValue_digitsText {n : Nat} (h : n < 10 ^ (k + 1)) :
    decimalValue (digitsText k n : List C) = n := by
  have hds : (digitsText k n : List C).map digitOf = Decimal.digitsOf k n := by
    rw [digitsText, map_map]
    conv_rhs => rw [← map_id (Decimal.digitsOf k n)]
    refine map_congr_left fun d hd => ?_
    exact digitOf_digitChar (Decimal.digitsOf_lt h d hd)
  rw [decimalValue, hds, Decimal.valueFrom_digitsOf, zero_mul, zero_add]

theorem isTextOf_digitsText {n : Nat} (hlow : 10 ^ k ≤ n) (hhi : n < 10 ^ (k + 1)) :
    IsTextOf n (digitsText k n : List C) := by
  refine ⟨?_, decimalValue_digitsText hhi⟩
  have hlt := Decimal.digitsOf_lt hhi
  have hfst : ∃ d rest, Decimal.digitsOf k n = d :: rest ∧ 0 < d := by
    cases k with
    | zero => exact ⟨n, [], rfl, hlow⟩
    | succ k => exact ⟨_, _, rfl, Nat.div_pos hlow (Nat.pow_pos (by decide))⟩
  obtain ⟨d, rest, hds, hd⟩ := hfst
  rw [hds] at hlt
  rw [digitsText, hds]
  obtain ⟨hdlt, hrs⟩ := forall_mem_cons.1 hlt
  refine .inr ⟨isDigit_digitChar hdlt, ?_, ?_⟩
  · rw [toNat_digitChar hdlt]
    omega
  · intro c hc
    obtain ⟨d', hd', rfl⟩ := mem_map.1 hc
    exact isDigit_digitChar (hrs d' hd')

theorem isTextOf_zero : IsTextOf 0 ([ofNat zeroChar] : List C) := by
  have hz : toNat (ofNat zeroChar : C) = zeroChar := toNat_ofNat _ (by decide)
  refine ⟨.inl ⟨hz, rfl⟩, ?_⟩
  simp [decimalValue, digitOf, hz]

theorem pushDigits_pow (k rem : Nat) (r : List C) :
    pushDigits rem (10 ^ k) r = r ++ digitsText k rem := by
  induction k generalizing rem r with
  | zero =>
    rw [pushDigits, pushDigits]
    simp [digitsText, Decimal.digitsOf]
  | succ k ih =>
    have hpos : 0 < 10 ^ (k + 1) := Nat.pow_pos (by decide)
    have hdiv : 10 ^ (k + 1) / 10 = 10 ^ k := by
      rw [Nat.pow_succ, Nat.mul_div_cancel _ (by decide)]
    have hrem : rem - rem / 10 ^ (k + 1) * 10 ^ (k + 1) = rem % 10 ^ (k + 1) := by
      have := Nat.div_add_mod' rem (10 ^ (k + 1))
      omega
    rw [pushDigits, if_pos hpos]
    dsimp only
    rw [hdiv, hrem, ih, append_assoc]
    rfl

theorem firstDiv_pow {x : Nat} (hx : 0 < x) (h : x < 10 ^ (k + 1)) :
    ∃ j, firstDiv x (10 ^ k) = 10 ^ j ∧ 10 ^ j ≤ x ∧ x < 10 ^ (j + 1) := by
  induction k with
  | zero =>
    rw [firstDiv, if_neg (by omega)]
    exact ⟨0, rfl, hx, h⟩
  | succ k ih =>
    rw [firstDiv]
    by_cases hlt : 10 ^ (k + 1) > x
    · have hdiv : 10 ^ (k + 1) / 10 = 10 ^ k := by
        rw [pow_succ, Nat.mul_div_cancel _ (by decide)]
      rw [if_pos hlt, hdiv]
      exact ih hlt
    · rw [if_neg hlt]
      exact ⟨k + 1, rfl, by omega, h⟩

def Prints (impl : Nat → List C → List C) (bound : Nat) : Prop :=
  ∀ x < bound, ∃ text, IsTextOf x text ∧ ∀ result, impl x result = result ++ text

theorem toStringImpl_prints {div bound : Nat} (hdiv : div = 10 ^ k) (hbd : bound ≤ 10 ^ (k + 1)) :
    Prints (toStringImpl div : Nat → List C → List C) bound := by
  intro x hx
  unfold toStringImpl
  by_cases hz : x = 0
  · subst hz
    exact ⟨_, isTextOf_zero, fun result => if_pos rfl⟩
  · obtain ⟨j, hfst, hlow, hhi⟩ := firstDiv_pow (k := k) (Nat.pos_of_ne_zero hz) (by omega)
    refine ⟨digitsText j x, isTextOf_digitsText hlow hhi, fun result => ?_⟩
    rw [if_neg hz, hdiv, hfst, pushDigits_pow]

theorem toStringImplU8_prints : Prints (toStringImplU8 : Nat → List C → List C) (2 ^ 8) := by
  intro x hx
  unfold toStringImplU8
  by_cases hhun : x ≥ 100
  · have hten : x / 10 % 10 = x % 10 ^ 2 / 10 ^ 1 := by omega
    have hone : x % 10 = x % 10 ^ 2 % 10 ^ 1 := by omega
    refine ⟨digitsText 2 x, isTextOf_digitsText hhun (by omega), fun result => ?_⟩
    rw [if_pos hhun, hten, hone, append_assoc]
    rfl
  by_cases hten : x ≥ 10
  · refine ⟨digitsText 1 x, isTextOf_digitsText hten (by omega), fun result => ?_⟩
    rw [if_neg hhun, if_pos hten, append_assoc]
    rfl
  · by_cases hz : x = 0
    · subst hz
      exact ⟨_, isTextOf_zero, fun result => rfl⟩
    · have hone : x % 10 = x := Nat.mod_eq_of_lt (by omega)
      refine ⟨digitsText 0 x, isTextOf_digitsText (Nat.pos_of_ne_zero hz) (by omega),
        fun result => ?_⟩
      rw [if_neg hhun, if_neg hten, hone]
      rfl

theorem toStringImplU64_prints : Prints (toStringImplU64 : Nat → List C → List C) (2 ^ 64) :=
  toStringImpl_prints (k := 19) (by norm_num) (by norm_num)

theorem toStringImplU128_prints : Prints (toStringImplU128 : Nat → List C → List C) (2 ^ 128) := by
  intro x hx
  unfold toStringImplU128
  by_cases hfast : x >>> 64 = 0
  · have hlt : x < 2 ^ 64 := by
      omega
    have hcv : toUnsigned 64 x = x := by
      unfold toUnsigned
      omega
    obtain ⟨t, ht, hpri⟩ := toStringImplU64_prints (C := C) x hlt
    refine ⟨t, ht, fun r => ?_⟩
    rw [if_pos hfast, hcv, hpri]
  · have hslow : Prints (toStringImpl 100000000000000000000000000000000000000 :
        Nat → List C → List C) (2 ^ 128) :=
      toStringImpl_prints (k := 38) (by norm_num) (by norm_num)
    obtain ⟨t, ht, hpri⟩ := hslow x hx
    refine ⟨t, ht, fun r => ?_⟩
    rw [if_neg hfast, hpri]

def IsNumeralOf (signed : Bool) (value : Int) (text : List C) : Prop :=
  IsNumeral signed text ∧ numeralValue text = value

theorem isNumeral_of_isDecimal {signed : Bool} {t : List C} (h : IsDecimal t) :
    IsNumeral signed t := by
  cases t with
  | nil => exact absurd h id
  | cons c t => exact .inl h

theorem isNumeralOf_unsigned {impl : Nat → List C → List C} {w : Nat}
    (himpl : Prints impl (2 ^ w)) {signed : Bool} (h : InRange false w value) :
    IsNumeralOf signed value (impl value.toNat []) := by
  rw [inRange_unsigned] at h
  obtain ⟨text, ⟨hdec, hv⟩, hpri⟩ := himpl value.toNat (by omega)
  rw [hpri, nil_append]
  refine ⟨isNumeral_of_isDecimal hdec, ?_⟩
  rw [numeralValue_of_isDecimal hdec]
  omega

theorem isNumeralOf_signed {impl : Nat → List C → List C} {w : Nat}
    (himpl : Prints impl (2 ^ (w + 1))) (h : InRange true (w + 1) value) :
    IsNumeralOf true value (toStringSigned (w + 1) impl value) := by
  rw [inRange_signed] at h
  unfold toStringSigned
  by_cases hnon : value ≥ 0
  · have hcv : toUnsigned (w + 1) value = value.toNat := by
      rw [toUnsigned, emod_eq_of_lt hnon]
      have : value < (2 ^ (w + 1) : Nat) := by omega
      exact_mod_cast this
    rw [if_pos hnon, hcv]
    refine isNumeralOf_unsigned himpl ?_
    rw [inRange_unsigned]
    omega
  · -- For the smallest value the negation overflows, and the conversion repairs this.
    have hcv : toUnsigned (w + 1) (negate (w + 1) value) = (-value).toNat := by
      have hmod : (-value).bmod (2 ^ (w + 1)) % (2 ^ (w + 1) : Nat) = -value := by
        rw [bmod_emod, emod_eq_of_lt (by omega) (by omega)]
      exact congrArg toNat (by exact_mod_cast hmod)
    obtain ⟨text, ⟨hdec, hv⟩, hpri⟩ := himpl (-value).toNat (by omega)
    have hmi : toNat (ofNat minusChar : C) = minusChar := toNat_ofNat _ (by decide)
    rw [if_neg hnon, hcv, hpri]
    refine ⟨.inr ⟨rfl, hmi, hdec⟩, ?_⟩
    rw [singleton_append, numeralValue]
    omega

variable (sz : SizeType)

theorem toString_isNumeralOf (t : IntegerType) (h : t.InRange sz value) :
    IsNumeralOf t.signed value (toString sz t value : List C) := by
  have h16 : Prints (toStringImplU16 : Nat → List C → List C) (2 ^ 16) :=
    toStringImpl_prints (k := 4) (by norm_num) (by norm_num)
  have h32 : Prints (toStringImplU32 : Nat → List C → List C) (2 ^ 32) :=
    toStringImpl_prints (k := 9) (by norm_num) (by norm_num)
  cases t with
  | i8 => exact isNumeralOf_signed toStringImplU8_prints h
  | u8 => exact isNumeralOf_unsigned toStringImplU8_prints h
  | i16 => exact isNumeralOf_signed h16 h
  | u16 => exact isNumeralOf_unsigned h16 h
  | i32 => exact isNumeralOf_signed h32 h
  | u32 => exact isNumeralOf_unsigned h32 h
  | i64 => exact isNumeralOf_signed toStringImplU64_prints h
  | u64 => exact isNumeralOf_unsigned toStringImplU64_prints h
  | i128 => exact isNumeralOf_signed toStringImplU128_prints h
  | u128 => exact isNumeralOf_unsigned toStringImplU128_prints h
  | ssizeType =>
    cases sz with
    | bytes4 => exact isNumeralOf_signed h32 h
    | bytes8 => exact isNumeralOf_signed toStringImplU64_prints h
  | sizeType =>
    cases sz with
    | bytes4 => exact isNumeralOf_unsigned h32 h
    | bytes8 => exact isNumeralOf_unsigned toStringImplU64_prints h

theorem parse_toString (t : IntegerType) (h : t.InRange sz value) :
    parse sz t (toString sz t value : List C) = (some value, []) := by
  obtain ⟨hnum, hv⟩ := toString_isNumeralOf (C := C) sz t h
  have hmax : IsMaximalNumeral t.signed (toString sz t value : List C) (toString sz t value) :=
    ⟨prefix_rfl, hnum, fun other ho _ => ho.length_le⟩
  obtain ⟨r, hsp⟩ := isMaximalNumeral_iff.1 hmax
  obtain rfl : r = [] := self_eq_append_right.1 (splitNumeral_append hsp).1
  have hag := parse_agrees sz t (toString sz t value : List C)
  unfold Agrees at hag
  rw [hsp] at hag
  have hout := hag.1 (hv.symm ▸ h)
  rw [hv] at hout
  exact hout

theorem parseAndExtractNumber_iff (t : IntegerType) (tx r : List C)
    (value : Int) :
    parseAndExtractNumber sz t tx = (some value, r) ↔
      ∃ numeral, IsMaximalNumeral t.signed numeral tx ∧ numeralValue numeral = value ∧
        t.InRange sz value ∧ tx = numeral ++ r := by
  have hag := parse_agrees sz t tx
  unfold Agrees at hag
  unfold parseAndExtractNumber
  constructor
  · intro h
    generalize parse sz t tx = outcome at h hag
    obtain ⟨found?, range⟩ := outcome
    cases found? with
    | none => cases h
    | some found =>
      cases h
      cases hsp : splitNumeral t.signed tx with
      | none => rw [hsp] at hag; cases hag
      | some split =>
        obtain ⟨numeral, r'⟩ := split
        rw [hsp] at hag
        have hin : t.InRange sz (numeralValue numeral) := by
          by_contra hnot
          cases hag.2 hnot
        cases hag.1 hin
        exact ⟨numeral, isMaximalNumeral_iff.2 ⟨_, hsp⟩, rfl, hin,
          (splitNumeral_append hsp).1⟩
  · rintro ⟨numeral, hmax, rfl, hin, ht⟩
    obtain ⟨r', hsp⟩ := isMaximalNumeral_iff.1 hmax
    obtain rfl : r' = r :=
      append_cancel_left ((splitNumeral_append hsp).1.symm.trans ht)
    rw [hsp] at hag
    rw [hag.1 hin]

/-- The text of each value is parsed back as a whole; and a number is extracted from a text
exactly if the longest numeral at its start has a value of the type. -/
theorem integer_texts_exact (size : SizeType) (type : IntegerType) :
    (∀ value, type.InRange size value →
      parseAndExtractNumber size type (toString size type value : List C) = (some value, []) ∧
        parseNumberExact size type (toString size type value : List C) = some value) ∧
    ∀ text : List C,
      (∀ value rest, parseAndExtractNumber size type text = (some value, rest) ↔
        ∃ numeral, IsMaximalNumeral type.signed numeral text ∧ numeralValue numeral = value ∧
          type.InRange size value ∧ text = numeral ++ rest) ∧
      ((parseAndExtractNumber size type text).1 = none →
        parseAndExtractNumber size type text = (none, text)) := by
  refine ⟨fun value h => ?_, fun text => ⟨fun value rest => ?_, fun h => ?_⟩⟩
  · unfold parseAndExtractNumber parseNumberExact
    rw [parse_toString size type h]
    exact ⟨rfl, rfl⟩
  · exact parseAndExtractNumber_iff size type text rest value
  · unfold parseAndExtractNumber at h ⊢
    generalize parse size type text = outcome at h ⊢
    obtain ⟨found?, range⟩ := outcome
    cases found? with
    | none => rfl
    | some found => cases h

/-- The smallest value of `i128`. -/
theorem integer_texts_exact_i128_min :
    IntegerType.i128.InRange .bytes8 (-170141183460469231731687303715884105728) ∧
      parseAndExtractNumber .bytes8 .i128
        (toString .bytes8 .i128 (-170141183460469231731687303715884105728) : List UInt8) =
          (some (-170141183460469231731687303715884105728), []) := by
  have h : IntegerType.i128.InRange .bytes8 (-170141183460469231731687303715884105728) := by
    unfold IntegerType.InRange InRange
    norm_num [IntegerType.signed, IntegerType.width]
  exact ⟨h, ((integer_texts_exact .bytes8 .i128).1 _ h).1⟩

end USprache.Ustlib.NumberParsing
