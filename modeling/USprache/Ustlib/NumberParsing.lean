import Mathlib.Tactic.NormNum
import USprache.Ustlib.Numerals

/-!
# Parsing of integers

A parser takes the longest numeral, and fails exactly if there is none or its value is
not in the range of the type.
-/

namespace USprache.Ustlib

open List Nat Int

namespace IntegerType

def signed : IntegerType → Bool
  | i8 | i16 | i32 | i64 | i128 | ssizeType => true
  | u8 | u16 | u32 | u64 | u128 | sizeType => false

def width (size : SizeType) : IntegerType → Nat
  | i8 | u8 => 8
  | i16 | u16 => 16
  | i32 | u32 => 32
  | i64 | u64 => 64
  | i128 | u128 => 128
  | ssizeType | sizeType =>
    match size with
    | .bytes4 => 32
    | .bytes8 => 64

end IntegerType

def InRange (signed : Bool) (width : Nat) (value : Int) : Prop :=
  if signed = true then -2 ^ (width - 1) ≤ value ∧ value < 2 ^ (width - 1)
  else 0 ≤ value ∧ value < 2 ^ width

def IntegerType.InRange (size : SizeType) (type : IntegerType) (value : Int) : Prop :=
  Ustlib.InRange type.signed (type.width size) value

namespace NumberParsing

open CharType Library

variable {C : Type} [CharType C]

def IsLimit (width limit : Nat) : Prop :=
  10 ≤ 2 ^ width ∧ limit * 10 < 2 ^ width ∧ 2 ^ width ≤ (limit + 1) * 10

variable {width : Nat} {text : List C} {value : Int} {outcome : Option Int × List C} {max : Int}

theorem parseDigits_spec {lim : Nat} (hlim : IsLimit width lim) (rg : List C)
    {r : Nat} (hres : r < 2 ^ width) :
    (Decimal.valueFrom r ((rg.takeWhile isDigit).map digitOf) < 2 ^ width →
      parseDigits width lim r rg = (some (Decimal.valueFrom r ((rg.takeWhile isDigit).map digitOf)),
          rg.dropWhile isDigit)) ∧
    (¬Decimal.valueFrom r ((rg.takeWhile isDigit).map digitOf) < 2 ^ width →
      (parseDigits width lim r rg).1 = none) := by
  induction rg generalizing r with
  | nil => exact ⟨fun _ => rfl, fun h => absurd hres h⟩
  | cons c rg ih =>
    rw [parseDigits]
    by_cases hd : isDigit c = true
    · obtain ⟨hten, hlow, hhi⟩ := hlim
      have hnine : digitOf c < 10 := by
        have := isDigit_iff.1 hd
        unfold digitOf zeroChar nineChar at *
        omega
      rw [takeWhile_cons_of_pos hd, dropWhile_cons_of_pos hd, map_cons,
        Decimal.valueFrom_cons, if_pos hd]
      have hle := Decimal.le_valueFrom (r * 10 + digitOf c) ((rg.takeWhile isDigit).map digitOf)
      by_cases hover : r > lim
      · rw [if_pos hover]
        exact ⟨fun h => by omega, fun _ => rfl⟩
      · have hmul : r * 10 % 2 ^ width = r * 10 := mod_eq_of_lt (by omega)
        rw [if_neg hover, hmul]
        dsimp only
        rw [show toNat c - zeroChar = digitOf c from rfl]
        by_cases hadd : r * 10 + digitOf c < 2 ^ width
        · rw [mod_eq_of_lt hadd, if_neg (by omega)]
          exact ih hadd
        · -- The sum wraps around once, so it is smaller than without the digit.
          have hwrap : (r * 10 + digitOf c) % 2 ^ width = r * 10 + digitOf c - 2 ^ width := by
            rw [mod_eq_sub_mod (by omega), mod_eq_of_lt (by omega)]
          rw [if_pos (by omega)]
          exact ⟨fun h => by omega, fun _ => rfl⟩
    · rw [takeWhile_cons_of_neg hd, dropWhile_cons_of_neg hd, if_neg hd]
      exact ⟨fun _ => rfl, fun h => absurd hres h⟩

def Agrees (signed : Bool) (inRange : Int → Prop) (text : List C) (outcome : Option Int × List C) :
    Prop :=
  match splitNumeral signed text with
  | none => outcome.1 = none
  | some (numeral, rest) =>
    (inRange (numeralValue numeral) → outcome = (some (numeralValue numeral), rest)) ∧
    (¬inRange (numeralValue numeral) → outcome.1 = none)

def AgreesUnsigned (width : Nat) (text : List C) (outcome : Option Nat × List C) : Prop :=
  match splitDecimal text with
  | none => outcome.1 = none
  | some (number, rest) =>
    (decimalValue number < 2 ^ width → outcome = (some (decimalValue number), rest)) ∧
    (¬decimalValue number < 2 ^ width → outcome.1 = none)

theorem parseImplUnsigned_agrees {lim : Nat} (hlim : IsLimit width lim) (text : List C) :
    AgreesUnsigned width text (parseImplUnsigned width lim text) := by
  cases text with
  | nil => rfl
  | cons c text =>
    unfold AgreesUnsigned
    rw [splitDecimal, parseImplUnsigned]
    by_cases hz : toNat c = zeroChar
    · have hv : decimalValue [c] = 0 := by
        simp [decimalValue, digitOf, hz]
      rw [if_pos hz, if_pos hz]
      dsimp only
      rw [hv]
      exact ⟨fun _ => rfl, fun h => absurd (Nat.two_pow_pos width) h⟩
    rw [if_neg hz, if_neg hz]
    by_cases hd : isDigit c = true
    · have hfst := isDigit_iff.1 hd
      rw [if_pos hd, if_neg (by unfold zeroChar at *; omega)]
      have hlt : toNat c - zeroChar < 2 ^ width := by
        have := hlim.1
        unfold zeroChar nineChar at *
        omega
      have hv : decimalValue (c :: text.takeWhile isDigit) =
          Decimal.valueFrom (toNat c - zeroChar) ((text.takeWhile isDigit).map digitOf) := by
        rw [decimalValue, map_cons, Decimal.valueFrom_cons, Nat.zero_add]
        rfl
      dsimp only
      rw [hv]
      exact parseDigits_spec hlim text hlt
    · have hnot : ¬(toNat c ≥ zeroChar + 1 ∧ toNat c ≤ nineChar) := by
        intro h
        exact hd (isDigit_iff.2 ⟨by omega, h.2⟩)
      rw [if_neg hd, if_pos hnot]

theorem isLimit_u32 : IsLimit 32 429496729 := by
  unfold IsLimit
  norm_num

theorem isLimit_u64 : IsLimit 64 1844674407370955161 := by
  unfold IsLimit
  norm_num

theorem isLimit_u128 : IsLimit 128 34028236692093846346337460743176821145 := by
  unfold IsLimit
  norm_num

theorem numeralValue_of_isDecimal {num : List C} (h : IsDecimal num) :
    numeralValue num = decimalValue num := by
  cases num with
  | nil => exact absurd h id
  | cons c text =>
    rw [numeralValue, if_neg]
    intro hmi
    exact not_isDecimal_minus hmi text h

theorem splitNumeral_false (text : List C) : splitNumeral false text = splitDecimal text := by
  cases text with
  | nil => rfl
  | cons c text =>
    rw [splitNumeral, if_neg]
    exact fun h => absurd h.1 (by decide)

theorem unsigned_agrees {outcome : Option Nat × List C} (h : AgreesUnsigned width text outcome) :
    Agrees false (InRange false width) text (unsigned outcome) := by
  unfold AgreesUnsigned at h
  unfold Agrees
  rw [splitNumeral_false]
  cases hsp : splitDecimal text with
  | none =>
    rw [hsp] at h
    exact congrArg (Option.map ofNat) h
  | some split =>
    obtain ⟨num, rest⟩ := split
    rw [hsp] at h
    have hv := numeralValue_of_isDecimal (splitDecimal_append hsp).2
    have hrg : InRange false width (numeralValue num) ↔ decimalValue num < 2 ^ width := by
      rw [hv]
      constructor
      · intro hrg
        exact_mod_cast hrg.2
      · intro hlt
        exact ⟨natCast_nonneg _, by exact_mod_cast hlt⟩
    dsimp only at h ⊢
    rw [hrg, hv]
    refine ⟨fun hlt => ?_, fun hnot => congrArg (Option.map ofNat) (h.2 hnot)⟩
    cases h.1 hlt
    rfl

theorem inRange_signed :
    InRange true (width + 1) value ↔ -(2 ^ width : Nat) ≤ value ∧ value < (2 ^ width : Nat) := by
  rfl

theorem bmod_of_inRange (h : InRange true (width + 1) value) :
    value.bmod (2 ^ (width + 1)) = value := by
  rw [inRange_signed] at h
  exact bmod_eq_of_le_mul_two (by omega) (by omega)

def AgreesPart (inRange : Int → Prop) (numeralOf : List C → List C)
    (split : Option (List C × List C)) (outcome : Option Int × List C) : Prop :=
  match split with
  | none => outcome.1 = none
  | some (number, rest) =>
    (inRange (numeralValue (numeralOf number)) →
      outcome = (some (numeralValue (numeralOf number)), rest)) ∧
    (¬inRange (numeralValue (numeralOf number)) → outcome.1 = none)

theorem keepUpTo_agrees {max : Nat} {outcome : Option Nat × List C}
    {convert : Nat → Int} (value : Nat → Int) {numeralOf : List C → List C} {inR : Int → Prop}
    (h : AgreesUnsigned width text outcome) (hmax : max < 2 ^ width)
    (hcv : ∀ res ≤ max, convert res = value res)
    (hrg : ∀ res, inR (value res) ↔ res ≤ max)
    (hv : ∀ num rs, splitDecimal text = some (num, rs) →
      numeralValue (numeralOf num) = value (decimalValue num)) :
    AgreesPart inR numeralOf (splitDecimal text) (keepUpTo max convert outcome) := by
  unfold AgreesUnsigned at h
  cases hsp : splitDecimal text with
  | none =>
    rw [hsp] at h
    obtain ⟨res, r⟩ := outcome
    cases h
    rfl
  | some split =>
    obtain ⟨num, rs⟩ := split
    rw [hsp] at h
    unfold AgreesPart
    dsimp only
    rw [hv num rs hsp, hrg]
    by_cases hlt : decimalValue num < 2 ^ width
    · rw [h.1 hlt, keepUpTo]
      by_cases hle : decimalValue num ≤ max
      · rw [if_pos hle, hcv _ hle]
        exact ⟨fun _ => rfl, fun hnot => absurd hle hnot⟩
      · rw [if_neg hle]
        exact ⟨fun hle' => absurd hle' hle, fun _ => rfl⟩
    · obtain ⟨res, r⟩ := outcome
      obtain rfl : res = none := h.2 hlt
      exact ⟨fun hle => by omega, fun _ => rfl⟩

theorem parseImplSigned_agrees {parseUnsigned : List C → Option Nat × List C}
    (hpa : ∀ text, AgreesUnsigned (width + 1) text (parseUnsigned text)) {maxNegative max : Nat}
    (hmaxNeg : maxNegative = 2 ^ width) (hmax : max + 1 = 2 ^ width) (text : List C) :
    Agrees true (InRange true (width + 1)) text
      (parseImplSigned (width + 1) parseUnsigned maxNegative max text) := by
  have hpos : ∀ text, (∀ (c : C) r, text = c :: r → toNat c ≠ minusChar) →
      Agrees true (InRange true (width + 1)) text
        (keepUpTo max (fun res => toSigned (width + 1) res) (parseUnsigned text)) := by
    intro text hmi
    have hsp : splitNumeral true text = splitDecimal text := by
      cases text with
      | nil => rfl
      | cons c r => rw [splitNumeral, if_neg fun h => hmi c r rfl h.2]
    have hpart : AgreesPart (InRange true (width + 1)) id (splitDecimal text)
        (keepUpTo max (fun res => toSigned (width + 1) res) (parseUnsigned text)) := by
      refine keepUpTo_agrees (fun res => (res : Int)) (hpa text) (by omega)
        (fun res hres => bmod_of_inRange ?_) (fun res => ?_) fun num r hnum => ?_
      · rw [inRange_signed]
        omega
      · rw [inRange_signed]
        omega
      · exact numeralValue_of_isDecimal (splitDecimal_append hnum).2
    unfold Agrees
    rw [hsp]
    exact hpart
  cases text with
  | nil => exact hpos [] (fun _ _ h => absurd h.symm (cons_ne_nil _ _))
  | cons c text =>
    rw [parseImplSigned]
    by_cases hmi : toNat c = minusChar
    · have hpart : AgreesPart (InRange true (width + 1)) (c :: ·) (splitDecimal text)
          (keepUpTo maxNegative (fun res => negate (width + 1) (toSigned (width + 1) res))
            (parseUnsigned text)) := by
        refine keepUpTo_agrees (fun res => -(res : Int)) (hpa text) (by omega) (fun res hres => ?_)
          (fun res => ?_) fun num r hnum => ?_
        · rw [negate, toSigned, bmod_neg_bmod]
          refine bmod_of_inRange ?_
          rw [inRange_signed]
          omega
        · rw [inRange_signed]
          omega
        · rw [numeralValue, if_pos hmi]
      rw [if_pos hmi]
      unfold Agrees
      rw [splitNumeral, if_pos ⟨rfl, hmi⟩]
      revert hpart
      cases splitDecimal text with
      | none => exact id
      | some split => exact id
    · rw [if_neg hmi]
      refine hpos (c :: text) fun c' r heq => ?_
      cases heq
      exact hmi

theorem narrow_agrees {signed : Bool} {inR inR' : Int → Prop} {min : Int} {convert : Int → Int}
    (h : Agrees signed inR text outcome) (hsub : ∀ value, inR' value → inR value)
    (hrg : ∀ value, inR value → (inR' value ↔ value ≥ min ∧ value ≤ max))
    (hcv : ∀ value, inR' value → convert value = value) :
    Agrees signed inR' text (narrow min max convert outcome) := by
  unfold Agrees at h ⊢
  cases hsp : splitNumeral signed text with
  | none =>
    rw [hsp] at h
    obtain ⟨res, r⟩ := outcome
    cases h
    rfl
  | some split =>
    obtain ⟨numeral, rest⟩ := split
    rw [hsp] at h
    dsimp only at h ⊢
    by_cases hin : inR (numeralValue numeral)
    · rw [h.1 hin, narrow, hrg _ hin]
      by_cases hnar : numeralValue numeral ≥ min ∧ numeralValue numeral ≤ max
      · rw [if_pos hnar, hcv _ ((hrg _ hin).2 hnar)]
        exact ⟨fun _ => rfl, fun hnot => absurd hnar hnot⟩
      · rw [if_neg hnar]
        exact ⟨fun h => absurd h hnar, fun _ => rfl⟩
    · obtain ⟨res, r⟩ := outcome
      obtain rfl : res = none := h.2 hin
      exact ⟨fun h => absurd (hsub _ h) hin, fun _ => rfl⟩

theorem parseImplU32_agrees (text : List C) : AgreesUnsigned 32 text (parseImplU32 text) :=
  parseImplUnsigned_agrees isLimit_u32 text

theorem parseImplU64_agrees (text : List C) : AgreesUnsigned 64 text (parseImplU64 text) :=
  parseImplUnsigned_agrees isLimit_u64 text

theorem parseImplU128_agrees (text : List C) : AgreesUnsigned 128 text (parseImplU128 text) :=
  parseImplUnsigned_agrees isLimit_u128 text

theorem parseImplI32_agrees (text : List C) : Agrees true (InRange true 32) text (parseImplI32 text) :=
  parseImplSigned_agrees parseImplU32_agrees (by norm_num) (by norm_num) text

theorem parseImplI64_agrees (text : List C) : Agrees true (InRange true 64) text (parseImplI64 text) :=
  parseImplSigned_agrees parseImplU64_agrees (by norm_num) (by norm_num) text

theorem parseImplI128_agrees (text : List C) :
    Agrees true (InRange true 128) text (parseImplI128 text) :=
  parseImplSigned_agrees parseImplU128_agrees (by norm_num) (by norm_num) text

theorem narrowSigned_agrees {wide : Nat} (hle : width ≤ wide)
    (h : Agrees true (InRange true (wide + 1)) text outcome)
    {min : Int} (hmin : min = -(2 ^ width : Nat)) (hmax : max + 1 = (2 ^ width : Nat)) :
    Agrees true (InRange true (width + 1)) text (narrow min max (toSigned (width + 1)) outcome) := by
  have hpow : 2 ^ width ≤ 2 ^ wide := Nat.pow_le_pow_right (by decide) hle
  refine narrow_agrees h (fun value hv => ?_) (fun value _ => ?_) fun value => bmod_of_inRange
  · rw [inRange_signed] at hv ⊢
    omega
  · rw [inRange_signed]
    omega

theorem inRange_unsigned : InRange false width value ↔ 0 ≤ value ∧ value < (2 ^ width : Nat) := by
  rfl

theorem toUnsigned_of_inRange (h : InRange false width value) :
    (toUnsigned width value : Int) = value := by
  rw [toUnsigned, emod_eq_of_lt h.1 h.2, toNat_of_nonneg h.1]

theorem narrowUnsigned_agrees {wide : Nat} (hle : width ≤ wide)
    (h : Agrees false (InRange false wide) text outcome)
    (hmax : max + 1 = (2 ^ width : Nat)) :
    Agrees false (InRange false width) text
      (narrow 0 max (fun num => toUnsigned width num) outcome) := by
  have hpow : 2 ^ width ≤ 2 ^ wide := Nat.pow_le_pow_right (by decide) hle
  refine narrow_agrees h (fun value hv => ?_) (fun value _ => ?_) fun value =>
    toUnsigned_of_inRange
  · rw [inRange_unsigned] at hv ⊢
    omega
  · rw [inRange_unsigned]
    omega

theorem parse_agrees (sz : SizeType) (t : IntegerType) (text : List C) :
    Agrees t.signed (t.InRange sz) text (parse sz t text) := by
  cases t with
  | i8 | i16 =>
    exact narrowSigned_agrees (by decide) (parseImplI32_agrees text) (by norm_num) (by norm_num)
  | u8 =>
    exact narrowUnsigned_agrees (show 8 ≤ 32 by decide) (unsigned_agrees (parseImplU32_agrees text))
      (show (255 : Int) + 1 = (2 ^ 8 : Nat) by norm_num)
  | u16 =>
    exact narrowUnsigned_agrees (show 16 ≤ 32 by decide) (unsigned_agrees (parseImplU32_agrees text))
      (show (65535 : Int) + 1 = (2 ^ 16 : Nat) by norm_num)
  | i32 => exact parseImplI32_agrees text
  | u32 => exact unsigned_agrees (parseImplU32_agrees text)
  | i64 => exact parseImplI64_agrees text
  | u64 => exact unsigned_agrees (parseImplU64_agrees text)
  | i128 => exact parseImplI128_agrees text
  | u128 => exact unsigned_agrees (parseImplU128_agrees text)
  | ssizeType =>
    cases sz with
    | bytes4 => exact parseImplI32_agrees text
    | bytes8 => exact parseImplI64_agrees text
  | sizeType =>
    cases sz with
    | bytes4 => exact unsigned_agrees (parseImplU32_agrees text)
    | bytes8 => exact unsigned_agrees (parseImplU64_agrees text)

end NumberParsing
end USprache.Ustlib
