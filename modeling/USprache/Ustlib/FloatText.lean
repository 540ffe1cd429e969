import USprache.Ustlib.FloatConversion
import USprache.Ustlib.Numerals

/-!
# Texts of floating-point numbers

The texts of the form `-?digits(.digits)?([eE][+-]?digits)?` and the numbers they denote.  The
parser rounds the number to the nearest floating-point number, as long as its 32-bit counters of
digits do not overflow.
-/

namespace USprache.Ustlib.FloatParsing

open CharType Library NumberParsing List Option Nat FloatProperties

def Digits (C : Type) [CharType C] : Type :=
  { digits : List C // digits ≠ [] ∧ ∀ c ∈ digits, isDigit c = true }

inductive ExponentSign where
  | absent | plus | minus
deriving DecidableEq

/-- `[eE][+-]?digits` -/
structure ExponentText (C : Type) [CharType C] where
  upperCase : Bool
  sign : ExponentSign
  digits : Digits C

/-- `-?digits(.digits)?([eE][+-]?digits)?` -/
structure FloatText (C : Type) [CharType C] where
  negative : Bool
  integerDigits : Digits C
  fraction : Option (Digits C)
  exponent : Option (ExponentText C)

variable {C : Type} [CharType C]

namespace ExponentText

def signChars : ExponentSign → List C
  | .absent => []
  | .plus => [ofNat 43]
  | .minus => [ofNat minusChar]

def chars (text : ExponentText C) : List C :=
  ofNat (if text.upperCase then 69 else 101) :: (signChars text.sign ++ text.digits.1)

def value (text : ExponentText C) : Int :=
  if text.sign = .minus then -decimalValue text.digits.1 else decimalValue text.digits.1

end ExponentText

namespace FloatText

variable (text : FloatText C)

def fractionalDigits : List C :=
  match text.fraction with
  | none => []
  | some digits => digits.1

def fractionChars : List C :=
  match text.fraction with
  | none => []
  | some digits => ofNat 46 :: digits.1

def exponentChars : List C :=
  match text.exponent with
  | none => []
  | some exponent => exponent.chars

def decimalExponent : Int :=
  match text.exponent with
  | none => 0
  | some exponent => exponent.value

def unsignedChars : List C :=
  text.integerDigits.1 ++ (text.fractionChars ++ text.exponentChars)

def chars : List C :=
  (if text.negative then [ofNat minusChar] else []) ++ text.unsignedChars

/-- The number that the text denotes, without its sign. -/
def magnitude : ℚ :=
  decimalValue (text.integerDigits.1 ++ text.fractionalDigits) *
    10 ^ (text.decimalExponent - text.fractionalDigits.length)

/-- The digits behind the point up to the last one that is not zero. -/
def trimmedFraction : List C := text.fractionalDigits.rdropWhile isZero

/-- The digits from the first one that is not zero to the last one of the integer part or to the
last one behind the point that is not zero. -/
def significantDigits : List C :=
  (text.integerDigits.1 ++ text.trimmedFraction).dropWhile isZero

def lastDigitExponent : Int := text.decimalExponent - text.trimmedFraction.length

/-- The exponent of the power of ten above the number. -/
def decimalOrder : Int := text.lastDigitExponent + text.significantDigits.length

/-- The counters of digits do not overflow: the order and, unless the order decides already, the
exponent of the last digit are numbers of type `i32`, and the product with the fixed-point logarithm
is a number of type `size_type`. -/
def FitsCounters (FP : FloatProperties) (size : SizeType) (text : FloatText C) : Prop :=
  text.significantDigits ≠ [] → -2 ^ 31 ≤ text.decimalOrder ∧ text.decimalOrder < 2 ^ 31 ∧
      (FP.minDecimalOrder ≤ text.decimalOrder → text.decimalOrder ≤ FP.maxDecimalOrder →
        -2 ^ 31 ≤ text.lastDigitExponent ∧
          text.significantDigits.length * log10DivLog2Fixed8 < 2 ^ size.bits)

end FloatText

/-! ## Splitting the text -/

def Stops (rest : List C) : Prop :=
  ∀ c ∈ rest.head?, isDigit c = false ∧ toNat c ≠ 46 ∧ toLower c ≠ 101

theorem takeWhile_digits {ds tail : List C} (hds : ∀ c ∈ ds, isDigit c = true)
    (htl : ∀ c ∈ tail.head?, isDigit c = false) :
    (ds ++ tail).takeWhile isDigit = ds ∧ (ds ++ tail).dropWhile isDigit = tail := by
  have hsto : tail.takeWhile isDigit = [] ∧ tail.dropWhile isDigit = tail := by
    cases tail with
    | nil => exact ⟨rfl, rfl⟩
    | cons c tail =>
      have hc : isDigit c = false := htl c rfl
      simp [hc]
  rw [takeWhile_append_of_pos hds, dropWhile_append_of_pos hds, hsto.1, hsto.2, append_nil]
  exact ⟨rfl, rfl⟩

theorem isDigit_ofNat {n : Nat} (hn : n < 0x80) (h : n < zeroChar ∨ nineChar < n) :
    isDigit (ofNat n : C) = false := by
  rw [isDigit, toNat_ofNat n hn, Bool.and_eq_false_iff, decide_eq_false_iff_not,
    decide_eq_false_iff_not]
  omega

theorem scanExponentDigits_eq {ds : List C} (hds : ∀ c ∈ ds, isDigit c = true) {v : Nat}
    (hlt : Decimal.valueFrom v (ds.map digitOf) < 65536) :
    scanExponentDigits v ds = Decimal.valueFrom v (ds.map digitOf) := by
  induction ds generalizing v with
  | nil => rfl
  | cons c ds ih =>
    obtain ⟨hz, -⟩ := isDigit_iff.1 (hds c mem_cons_self)
    have hle := Decimal.le_valueFrom (v * 10 + digitOf c) (ds.map digitOf)
    rw [map_cons, Decimal.valueFrom_cons] at hlt ⊢
    have hst : min ((v : Int) * 10 + (toNat c - zeroChar)) 65536 = (v * 10 + digitOf c : Nat) := by
      rw [digitOf] at hle hlt ⊢
      omega
    rw [scanExponentDigits, hst]
    exact ih (fun c' hc' => hds c' (mem_cons_of_mem c hc')) hlt

variable {r : List C}

theorem scanExponent_eq (ex : ExponentText C) (hrs : Stops r)
    (hlt : decimalValue ex.digits.1 < 65536) :
    scanExponent (ExponentText.signChars ex.sign ++ (ex.digits.1 ++ r)) = some (ex.value, r) := by
  obtain ⟨hne, hds⟩ := ex.digits.2
  obtain ⟨htk, hdr⟩ := takeWhile_digits hds fun c hc => (hrs c hc).1
  have hscan := scanExponentDigits_eq hds hlt
  have hnonempty : (ex.digits.1 ++ r).isEmpty = false := by
    simp [hne]
  have hfin : ∀ negative : Bool, (if (ex.digits.1 ++ r).isEmpty then none
        else
          let value := scanExponentDigits 0 ((ex.digits.1 ++ r).takeWhile isDigit)
          some (if negative then -value else value, (ex.digits.1 ++ r).dropWhile isDigit)) =
      some ((if negative then -decimalValue ex.digits.1 else decimalValue ex.digits.1 : Int),
        r) := by
    intro negative
    rw [hnonempty, htk, hdr]
    simp only [decimalValue, ← hscan]
    rfl
  unfold scanExponent ExponentText.value
  cases hsign : ex.sign with
  | absent =>
    obtain ⟨c, digits, hco⟩ := exists_cons_of_ne_nil hne
    obtain ⟨hz, -⟩ := isDigit_iff.1 (hds c (by rw [hco]; exact mem_cons_self))
    have hmi : toNat c ≠ minusChar := by
      rw [zeroChar] at hz
      rw [minusChar]
      omega
    have hplus : toNat c ≠ 43 := by
      rw [zeroChar] at hz
      omega
    rw [ExponentText.signChars, nil_append]
    have h := hfin false
    rw [hco, cons_append] at h ⊢
    simp only [if_neg hmi, if_neg hplus]
    exact h
  | plus =>
    have hplus : toNat (ofNat 43 : C) = 43 := toNat_ofNat 43 (by decide)
    have hmi : (43 : Nat) ≠ minusChar := by decide
    rw [ExponentText.signChars, cons_append]
    simp only [hplus]
    exact hfin false
  | minus =>
    have hmi : toNat (ofNat minusChar : C) = minusChar := toNat_ofNat minusChar (by decide)
    rw [ExponentText.signChars, cons_append]
    simp only [hmi, if_true]
    exact hfin true

variable (t : FloatText C)

theorem scanFractionalPart_eq {tail : List C}
    (htl : ∀ c ∈ tail.head?, isDigit c = false ∧ toNat c ≠ 46) :
    scanFractionalPart (t.fractionChars ++ tail) = some (t.fractionalDigits, tail) := by
  rw [FloatText.fractionChars, FloatText.fractionalDigits]
  cases t.fraction with
  | none =>
    cases tail with
    | nil => rfl
    | cons c tail =>
      have hc : toNat c ≠ 46 := (htl c rfl).2
      simp [scanFractionalPart, hc]
  | some ds =>
    obtain ⟨hne, hds⟩ := ds.2
    obtain ⟨htk, hdr⟩ := takeWhile_digits hds fun c hc => (htl c hc).1
    have hnonempty : (ds.1 ++ tail).isEmpty = false := by
      simp [hne]
    have hpt : toNat (ofNat 46 : C) = 46 := toNat_ofNat 46 (by decide)
    simp only [cons_append, scanFractionalPart, hpt, hnonempty, htk, hdr]
    rfl

def FloatText.parts (text : FloatText C) : Parts C :=
  ⟨text.integerDigits.1, text.fractionalDigits, text.decimalExponent⟩

def FloatText.ExponentSmall (text : FloatText C) : Prop :=
  -65536 < text.decimalExponent ∧ text.decimalExponent < 65536

theorem toLower_marker (upperC : Bool) :
    toLower (ofNat (if upperC then 69 else 101) : C) = 101 := by
  cases upperC with
  | false =>
    rw [toLower, if_neg Bool.false_ne_true, toNat_ofNat 101 (by decide)]
    rfl
  | true =>
    rw [toLower, if_pos rfl, toNat_ofNat 69 (by decide)]
    rfl

theorem marker_stops (upperC : Bool) : isDigit (ofNat (if upperC then 69 else 101) : C) = false ∧
    toNat (ofNat (if upperC then 69 else 101) : C) ≠ 46 := by
  cases upperC with
  | false =>
    refine ⟨isDigit_ofNat (by decide) (by decide), ?_⟩
    rw [if_neg Bool.false_ne_true, toNat_ofNat 101 (by decide)]
    decide
  | true =>
    refine ⟨isDigit_ofNat (by decide) (by decide), ?_⟩
    rw [if_pos rfl, toNat_ofNat 69 (by decide)]
    decide

theorem scan_eq (hexponent : t.ExponentSmall)
    (hrs : Stops r) : scan (t.unsignedChars ++ r) = some (t.parts, r) := by
  obtain ⟨hne, hds⟩ := t.integerDigits.2
  have hexponentHead : ∀ c ∈ (t.exponentChars ++ r).head?, isDigit c = false ∧ toNat c ≠ 46 := by
    intro c hc
    rw [FloatText.exponentChars] at hc
    cases h : t.exponent with
    | none =>
      rw [h] at hc
      exact ⟨(hrs c hc).1, (hrs c hc).2.1⟩
    | some ex =>
      simp only [h, ExponentText.chars, cons_append, head?_cons, mem_some_iff] at hc
      rw [← hc]
      exact marker_stops ex.upperCase
  have hfrHd : ∀ c ∈ (t.fractionChars ++ (t.exponentChars ++ r)).head?, isDigit c = false := by
    intro c hc
    rw [FloatText.fractionChars] at hc
    cases h : t.fraction with
    | none =>
      rw [h] at hc
      exact (hexponentHead c hc).1
    | some ds =>
      rw [h, cons_append, head?_cons, mem_some_iff] at hc
      rw [← hc]
      exact isDigit_ofNat (by decide) (by decide)
  obtain ⟨htk, hdr⟩ := takeWhile_digits hds hfrHd
  obtain ⟨c, ds, hco⟩ := exists_cons_of_ne_nil hne
  have hc : ¬¬isDigit c = true := by
    simp [hds c (by rw [hco]; exact mem_cons_self)]
  rw [FloatText.unsignedChars, append_assoc, append_assoc, hco, cons_append, scan,
    ← cons_append, ← hco, htk, hdr, if_neg hc, scanFractionalPart_eq t hexponentHead,
    FloatText.parts]
  cases h : t.exponent with
  | none =>
    have hz : t.decimalExponent = 0 := by rw [FloatText.decimalExponent, h]
    rw [FloatText.exponentChars, h, hz, nil_append]
    cases r with
    | nil => rfl
    | cons c r =>
      have hsto : toLower c ≠ 101 := (hrs c rfl).2.2
      simp only [if_neg hsto]
  | some ex =>
    have hv : t.decimalExponent = ex.value := by rw [FloatText.decimalExponent, h]
    have hlt : decimalValue ex.digits.1 < 65536 := by
      obtain ⟨hlo, hup⟩ := hexponent
      rw [hv, ExponentText.value] at hlo hup
      by_cases hmi : ex.sign = .minus
      · omega
      · omega
    rw [FloatText.exponentChars, h, hv]
    simp only [ExponentText.chars, cons_append, toLower_marker, if_true, append_assoc,
      scanExponent_eq ex hrs hlt, map_some]

/-! ## Trimming -/

section

variable {α : Type} (p : α → Bool)

theorem rdropWhile_cons (a : α) (l : List α) : (a :: l).rdropWhile p =
    if l.rdropWhile p = [] then (if p a then [] else [a]) else a :: l.rdropWhile p := by
  have hiff : (l.reverse.dropWhile p).isEmpty = true ↔ (l.reverse.dropWhile p).reverse = [] := by
    rw [List.isEmpty_iff, reverse_eq_nil_iff]
  rw [rdropWhile, rdropWhile, reverse_cons, dropWhile_append]
  by_cases h : (l.reverse.dropWhile p).isEmpty = true
  · rw [if_pos h, if_pos (hiff.1 h), dropWhile_cons]
    split <;> rfl
  · rw [if_neg h, if_neg (hiff.not.1 h), reverse_append, reverse_singleton, singleton_append]

theorem dropWhile_rdropWhile (l : List α) :
    (l.rdropWhile p).dropWhile p = (l.dropWhile p).rdropWhile p := by
  induction l with
  | nil => rfl
  | cons a l ih =>
    rw [rdropWhile_cons, dropWhile_cons]
    by_cases ha : p a = true
    · rw [if_pos ha, if_pos ha, ← ih]
      split
      · next h => rw [h]
      · rw [dropWhile_cons, if_pos ha]
    · rw [if_neg ha, if_neg ha, rdropWhile_cons]
      split
      · rw [dropWhile_cons, if_neg ha]
      · rw [dropWhile_cons, if_neg ha]

theorem length_rdropWhile {l : List α} (h : (l.rdropWhile p).dropWhile p ≠ []) :
    l.length - (l.dropWhile p).length + ((l.dropWhile p).rdropWhile p).length =
      (l.rdropWhile p).length := by
  induction l with
  | nil => rfl
  | cons a l ih =>
    have hle := length_dropWhile_le p l
    rw [rdropWhile_cons] at h ⊢
    rw [dropWhile_cons]
    by_cases ha : p a = true
    · rw [if_pos ha] at h ⊢
      by_cases hnil : l.rdropWhile p = []
      · rw [if_pos hnil] at h
        exact absurd rfl h
      · rw [if_neg hnil] at h ⊢
        rw [dropWhile_cons, if_pos ha] at h
        have h' := ih h
        rw [length_cons, length_cons]
        omega
    · rw [if_neg ha, rdropWhile_cons]
      omega

end

theorem trim_append (parts : Parts C) : parts.trim.integerPart ++ parts.trim.fractionalPart =
    (parts.integerPart ++ parts.fractionalPart.rdropWhile isZero).dropWhile isZero := by
  rw [dropWhile_append]
  simp only [Parts.trim]
  split
  · next h =>
    rw [List.isEmpty_iff.1 h, nil_append, dropWhile_rdropWhile]
  · rfl

theorem trim_numFractionalDigits (parts : Parts C)
    (h : parts.trim.integerPart ++ parts.trim.fractionalPart ≠ []) :
    parts.trim.numFractionalDigits = (parts.fractionalPart.rdropWhile isZero).length := by
  simp only [Parts.trim] at h ⊢
  split
  · next hz =>
    rw [if_pos hz, List.isEmpty_iff.1 hz, ← dropWhile_rdropWhile] at h
    exact length_rdropWhile isZero h
  · rw [Nat.sub_self, zero_add]

/-! ## The number -/

theorem valueFrom_eq (v : Nat) (ds : List Nat) :
    Decimal.valueFrom v ds = v * 10 ^ ds.length + Decimal.valueFrom 0 ds := by
  induction ds generalizing v with
  | nil => simp
  | cons d ds ih =>
    rw [Decimal.valueFrom_cons, Decimal.valueFrom_cons, ih, ih (0 * 10 + d), length_cons]
    ring

theorem decimalValue_append (a b : List C) :
    decimalValue (a ++ b) = decimalValue a * 10 ^ b.length + decimalValue b := by
  rw [decimalValue, map_append, Decimal.valueFrom, foldl_append]
  have h := valueFrom_eq (decimalValue a) (b.map digitOf)
  rw [length_map] at h
  exact h

theorem decimalValue_zeros {zeros : List C} (h : ∀ c ∈ zeros, isZero c = true) :
    decimalValue zeros = 0 := by
  induction zeros with
  | nil => rfl
  | cons c zeros ih =>
    have hc : toNat c = zeroChar := by simpa [isZero] using h c mem_cons_self
    have ih' := ih fun c' hc' => h c' (mem_cons_of_mem c hc')
    rw [decimalValue] at ih' ⊢
    rw [map_cons, digitOf, hc]
    exact ih'

theorem decimalValue_dropWhile (l : List C) : decimalValue (l.dropWhile isZero) = decimalValue l := by
  conv_rhs => rw [← takeWhile_append_dropWhile (p := isZero) (l := l)]
  rw [decimalValue_append, decimalValue_zeros fun c hc => mem_takeWhile_imp hc, zero_mul,
    zero_add]

theorem decimalValue_rdropWhile (a l : List C) : decimalValue (a ++ l) =
    decimalValue (a ++ l.rdropWhile isZero) * 10 ^ (l.length - (l.rdropWhile isZero).length) := by
  have hsp : l.rdropWhile isZero ++ l.rtakeWhile isZero = l := rdropWhile_append_rtakeWhile
  have hlen := congrArg length hsp
  rw [length_append] at hlen
  conv_lhs => rw [← hsp, ← append_assoc]
  rw [decimalValue_append, decimalValue_zeros fun c hc => mem_rtakeWhile_imp hc, add_zero,
    show l.length - (l.rdropWhile isZero).length = (l.rtakeWhile isZero).length by omega]

namespace FloatText

theorem magnitude_eq :
    t.magnitude = decimalValue t.significantDigits * 10 ^ t.lastDigitExponent := by
  have hle : t.trimmedFraction.length ≤ t.fractionalDigits.length :=
    (List.rdropWhile_prefix isZero _).length_le
  have hexp : t.lastDigitExponent =
      ((t.fractionalDigits.length - t.trimmedFraction.length : ℕ) : Int) +
        (t.decimalExponent - t.fractionalDigits.length) := by
    rw [lastDigitExponent]
    omega
  rw [magnitude, significantDigits, decimalValue_dropWhile, decimalValue_rdropWhile, hexp,
    zpow_add₀ (by norm_num), ← mul_assoc]
  push_cast
  rfl

theorem isDigit_of_mem_significantDigits :
    ∀ c ∈ t.significantDigits, isDigit c = true := by
  intro c hc
  have hmem := (dropWhile_suffix isZero).subset hc
  rcases mem_append.1 hmem with h | h
  · exact t.integerDigits.2.2 c h
  · have h' := (List.rdropWhile_prefix isZero _).subset h
    rw [fractionalDigits] at h'
    split at h'
    · cases h'
    · next digits _ => exact digits.2.2 c h'

theorem pow_le_decimalValue (hne : t.significantDigits ≠ []) :
    10 ^ (t.significantDigits.length - 1) ≤ decimalValue t.significantDigits := by
  obtain ⟨c, digits, hco⟩ := exists_cons_of_ne_nil hne
  have hd := t.isDigit_of_mem_significantDigits c (by rw [hco]; exact mem_cons_self)
  have hz : isZero c = false := by
    have h := head_dropWhile_not isZero hne
    have hhd : t.significantDigits.head hne = c := by
      simp only [hco, head_cons]
    rw [← hhd]
    exact h
  have hpos : 1 ≤ digitOf c := by
    have hge := (isDigit_iff.1 hd).1
    have hne' : toNat c ≠ zeroChar := by simpa [isZero] using hz
    rw [digitOf]
    omega
  rw [hco, ← singleton_append, decimalValue_append, length_append, length_singleton,
    Nat.add_sub_cancel_left]
  have hv : decimalValue [c] = digitOf c := by simp [decimalValue]
  rw [hv]
  exact (Nat.le_mul_of_pos_left _ hpos).trans (le_add_right _ _)

end FloatText

/-! ## The parser -/

variable {FP : FloatProperties} {size : SizeType} {c : C} {x : ℚ}

theorem digitOf_lt (h : isDigit c = true) : digitOf c < 10 := by
  obtain ⟨-, hnine⟩ := isDigit_iff.1 h
  rw [digitOf]
  rw [nineChar] at hnine
  rw [zeroChar]
  omega

theorem two_zpow_le {a b : Nat} (h : 2 ^ a ≤ 10 ^ b) : (2 : ℚ) ^ (a : Int) ≤ 10 ^ (b : Int) := by
  exact_mod_cast h

theorem nearest_infinity (hFP : FP.Supported) {o : Int} (hlo : 10 ^ (o - 1) ≤ x)
    (hord : FP.maxDecimalOrder < o) :
    NearestEven FP.magnitude FP.infinity x FP.infinity := by
  have hpow : FP.magnitude FP.infinity ≤ 10 ^ FP.maxDecimalOrder := by
    rw [magnitude_infinity hFP]
    rcases hFP with rfl | rfl
    · exact two_zpow_le (a := 128) (b := 40) (by decide +kernel)
    · exact two_zpow_le (a := 1024) (b := 311) (by decide +kernel)
  refine NearestEven.of_top_le FP.magnitude_strictMono (le_trans (hpow.trans ?_) hlo)
  exact zpow_le_zpow_right₀ (by norm_num) (by omega)

theorem nearest_zero (hFP : FP.Supported) {o : Int} (hnon : 0 ≤ x)
    (hup : x < 10 ^ o) (hord : o < FP.minDecimalOrder) :
    NearestEven FP.magnitude FP.infinity x 0 := by
  refine FP.nearest_zero hnon (hup.trans_le ?_)
  have hle : (10 : ℚ) ^ o ≤ 10 ^ (FP.minDecimalOrder - 1) :=
    zpow_le_zpow_right₀ (by norm_num) (by omega)
  refine hle.trans ?_
  rcases hFP with rfl | rfl
  · have h := inv_anti₀ (by positivity) (two_zpow_le (a := 150) (b := 47) (by decide +kernel))
    rwa [← zpow_neg] at h
  · have h := inv_anti₀ (by positivity) (two_zpow_le (a := 1075) (b := 342) (by decide +kernel))
    rwa [← zpow_neg] at h

/-- The exponent of the last digit may overflow; the order does not depend on that. -/
theorem toSigned_decimalOrder :
    toSigned 32 (toSigned 32 (t.parts.decimalExponent - toSigned 32 t.trimmedFraction.length) +
      toSigned 32 t.significantDigits.length) = toSigned 32 t.decimalOrder := by
  simp only [toSigned, Int.sub_bmod_bmod, Int.bmod_add_bmod, Int.add_bmod_bmod]
  rfl

theorem trim_significantDigits :
    t.parts.trim.integerPart ++ t.parts.trim.fractionalPart = t.significantDigits :=
  trim_append t.parts

theorem trim_numDigits : t.parts.trim.numDigits = t.significantDigits.length := by
  rw [Significand.numDigits, ← length_append, trim_significantDigits]

theorem trim_trimmedFraction (hne : t.significantDigits ≠ []) :
    t.parts.trim.numFractionalDigits = t.trimmedFraction.length :=
  trim_numFractionalDigits t.parts (by rw [trim_significantDigits]; exact hne)

theorem continueParsingFiniteFloat_correct (hFP : FP.Supported) (t : FloatText C)
    (hexponent : t.ExponentSmall) (hfit : t.FitsCounters FP size) (hrs : Stops r) (sign : Nat) :
    ∃ b, continueParsingFiniteFloat FP size sign (t.unsignedChars ++ r) =
        .ok (some (sign ||| b), r) ∧
      NearestEven FP.magnitude FP.infinity t.magnitude b := by
  rw [continueParsingFiniteFloat, scan_eq t hexponent hrs]
  simp only
  rw [trim_numDigits]
  by_cases hz : t.significantDigits = []
  · refine ⟨0, ?_, ?_⟩
    · rw [hz, length_nil, if_pos rfl, or_zero]
    · have hv : t.magnitude = 0 := by
        rw [t.magnitude_eq, hz]
        simp [decimalValue]
      rw [hv]
      exact FP.nearest_zero le_rfl (zpow_pos (by norm_num) _)
  · have hlen : 0 < t.significantDigits.length := length_pos_iff.2 hz
    obtain ⟨hord, hord', hexp⟩ := hfit hz
    have hds : ∀ d ∈ t.significantDigits.map digitOf, d < 10 := by
      intro d hd
      obtain ⟨c, hc, rfl⟩ := mem_map.1 hd
      exact digitOf_lt (t.isDigit_of_mem_significantDigits c hc)
    obtain ⟨hlo, hup⟩ := value_bounds hds (by rwa [length_map])
      (by rw [length_map]; exact t.pow_le_decimalValue hz) t.lastDigitExponent
    rw [length_map] at hlo hup
    have hv : t.magnitude =
        Decimal.valueFrom 0 (t.significantDigits.map digitOf) * 10 ^ t.lastDigitExponent :=
      t.magnitude_eq
    have hordEq := toSigned_decimalOrder t
    rw [toSigned_eq_self hord hord'] at hordEq
    rw [← hv] at hlo hup
    rw [if_neg (by omega), trim_trimmedFraction t hz, hordEq]
    by_cases hlg : t.decimalOrder > FP.maxDecimalOrder
    · rw [if_pos hlg]
      exact ⟨FP.infinity, rfl, nearest_infinity hFP hlo hlg⟩
    rw [if_neg hlg]
    by_cases hsm : t.decimalOrder < FP.minDecimalOrder
    · rw [if_pos hsm]
      refine ⟨0, by rw [or_zero], nearest_zero hFP ?_ hup hsm⟩
      exact (zpow_nonneg (by norm_num) _).trans hlo
    rw [if_neg hsm]
    obtain ⟨hla, hsz⟩ := hexp (by omega) (by omega)
    have hlaEq : toSigned 32 (t.parts.decimalExponent -
        toSigned 32 t.trimmedFraction.length) = t.lastDigitExponent := by
      have hsum : t.decimalOrder = t.lastDigitExponent + t.significantDigits.length := rfl
      have hsf : toSigned 32 t.lastDigitExponent = t.lastDigitExponent :=
        toSigned_eq_self hla (by omega)
      rw [← hsf]
      simp only [toSigned, Int.sub_bmod_bmod]
      rfl
    have hdsEq : t.parts.trim.digits = t.significantDigits.map digitOf := by
      rw [Significand.digits, trim_significantDigits]
      rfl
    obtain ⟨b, hcv, hnr⟩ := convert_correct hFP hds (by rwa [length_map])
      (by rw [length_map]; exact t.pow_le_decimalValue hz)
      (by rw [length_map]; exact hsz) hla
      (by rw [length_map]; exact Int.not_lt.1 hsm)
      (by rw [length_map]; exact Int.not_lt.1 hlg) sign
    refine ⟨b, ?_, by rw [hv]; exact hnr⟩
    rw [hlaEq, hdsEq, hcv]
    rfl

theorem dropWord_of_isDigit (hc : isDigit c = true) (s : List C) {letter : Nat}
    (hlet : 64 ≤ letter) (letters : List Nat) : dropWord (letter :: letters) (c :: s) = none := by
  obtain ⟨-, hnine⟩ := isDigit_iff.1 hc
  have hlo : toLower c < 2 ^ 6 := by
    refine or_lt_two_pow ?_ (by decide)
    rw [nineChar] at hnine
    omega
  rw [dropWord, if_neg (by omega)]

theorem continueParsingFiniteFloat_of_overflow (hexponent : t.ExponentSmall)
    (hne : t.significantDigits ≠ [])
    (hlg : toSigned 32 t.decimalOrder > FP.maxDecimalOrder) (sign : Nat) :
    continueParsingFiniteFloat FP size sign t.unsignedChars =
      .ok (some (sign ||| FP.infinity), []) := by
  have hlen : t.significantDigits.length ≠ 0 := (length_pos_iff.2 hne).ne'
  have hscan : scan (t.unsignedChars ++ []) = some (t.parts, []) :=
    scan_eq t hexponent fun _ h => by cases h
  rw [append_nil] at hscan
  rw [continueParsingFiniteFloat, hscan]
  simp only
  rw [trim_numDigits, if_neg hlen, trim_trimmedFraction t hne, toSigned_decimalOrder, if_pos hlg]

theorem parseFloatImpl_unsigned (hc : isDigit c = true) (s : List C) :
    parseFloatImpl FP size (c :: s) = continueParsingFiniteFloat FP size 0 (c :: s) := by
  have hmi : toNat c ≠ minusChar := by
    obtain ⟨hz, -⟩ := isDigit_iff.1 hc
    rw [zeroChar] at hz
    rw [minusChar]
    omega
  unfold parseFloatImpl
  simp only [if_neg hmi, dropWord_of_isDigit hc s (show 64 ≤ 110 by decide),
    dropWord_of_isDigit hc s (show 64 ≤ 105 by decide)]

theorem parseFloatImpl_negative (hc : isDigit c = true) (s : List C) :
    parseFloatImpl FP size (ofNat minusChar :: c :: s) =
      continueParsingFiniteFloat FP size FP.signMask (c :: s) := by
  unfold parseFloatImpl
  simp only [toNat_ofNat minusChar (show minusChar < 0x80 by decide), if_true,
    dropWord_of_isDigit hc s (show 64 ≤ 110 by decide),
    dropWord_of_isDigit hc s (show 64 ≤ 105 by decide)]

/-- `parse_float_impl` returns the nearest floating-point number and consumes the whole text. -/
theorem parseFloatImpl_correct (hFP : FP.Supported) (t : FloatText C)
    (hexponent : t.ExponentSmall) (hfit : t.FitsCounters FP size) (hrs : Stops r) :
    ∃ bs, parseFloatImpl FP size (t.chars ++ r) = .ok (some bs, r) ∧
      RoundsTo FP t.negative t.magnitude bs := by
  obtain ⟨b, hpa, hnr⟩ := continueParsingFiniteFloat_correct hFP t hexponent hfit hrs
    (if t.negative then FP.signMask else 0)
  refine ⟨_, ?_, b, rfl, hnr⟩
  obtain ⟨hne, hds⟩ := t.integerDigits.2
  obtain ⟨c, digits, hco⟩ := exists_cons_of_ne_nil hne
  have hc : isDigit c = true := hds c (by rw [hco]; exact mem_cons_self)
  obtain ⟨tail, htl⟩ : ∃ tail, t.unsignedChars ++ r = c :: tail := by
    rw [FloatText.unsignedChars, hco]
    exact ⟨_, rfl⟩
  rw [htl] at hpa
  rw [FloatText.chars]
  cases hneg : t.negative with
  | false =>
    rw [hneg] at hpa
    rw [if_neg Bool.false_ne_true, nil_append, htl]
    exact (parseFloatImpl_unsigned hc tail).trans hpa
  | true =>
    rw [hneg] at hpa
    rw [append_assoc, htl]
    exact (parseFloatImpl_negative hc tail).trans hpa

/-- A text of a number is parsed to the nearest floating-point number, if the counters of its
digits do not overflow. -/
theorem parseFloatImpl_correctly_rounded (T : FloatType) (size : SizeType) (text : FloatText C)
    (hexponent : text.ExponentSmall) (hfits : text.FitsCounters T.properties size) :
    ∃ bits, parseFloatImpl T.properties size text.chars = .ok (some bits, []) ∧
      RoundsTo T.properties text.negative text.magnitude bits := by
  have h := parseFloatImpl_correct (supported_properties T) text hexponent hfits
    (show Stops ([] : List C) from fun _ h => by cases h)
  rwa [append_nil] at h

def Digits.single (c : C) (hc : isDigit c = true) : Digits C :=
  ⟨[c], cons_ne_nil c [], fun _ h => by rwa [mem_singleton.1 h]⟩

/-- `-2.5e-1` -/
def minusQuarter : FloatText UInt8 :=
  { negative := true
    integerDigits := Digits.single 50 (by decide)
    fraction := some (Digits.single 53 (by decide))
    exponent := some { upperCase := false, sign := .minus, digits := Digits.single 49 (by decide) } }

theorem parseFloatImpl_correctly_rounded_minusQuarter :
    minusQuarter.ExponentSmall ∧ minusQuarter.FitsCounters FloatType.f64.properties .bytes8 ∧
      ∃ bits, parseFloatImpl FloatType.f64.properties .bytes8 minusQuarter.chars = .ok (some bits, []) ∧
        RoundsTo FloatType.f64.properties true minusQuarter.magnitude bits := by
  have hexponent : minusQuarter.ExponentSmall := ⟨by decide, by decide⟩
  have hfits : minusQuarter.FitsCounters FloatType.f64.properties .bytes8 := by
    intro _
    exact ⟨by decide, by decide, fun _ _ => ⟨by decide, by decide⟩⟩
  exact ⟨hexponent, hfits, parseFloatImpl_correctly_rounded .f64 .bytes8 minusQuarter hexponent hfits⟩

/-- `0.`, the number of zeros and `1`. -/
def tinyText (numZeros : Nat) : FloatText UInt8 :=
  { negative := false
    integerDigits := Digits.single 48 (by decide)
    fraction := some ⟨replicate numZeros 48 ++ [49], by simp, by
      intro c hc
      rcases mem_append.1 hc with h | h
      · rw [eq_of_mem_replicate h]
        decide
      · rw [mem_singleton.1 h]
        decide⟩
    exponent := none }

variable (numZeros : Nat)

theorem tinyText_trimmedFraction :
    (tinyText numZeros).trimmedFraction = replicate numZeros 48 ++ [49] :=
  rdropWhile_concat_neg isZero _ _ (by decide)

theorem tinyText_significantDigits : (tinyText numZeros).significantDigits = [49] := by
  rw [FloatText.significantDigits, tinyText_trimmedFraction]
  have hzer : ∀ c ∈ (48 : UInt8) :: replicate numZeros 48, isZero c = true := by
    intro c hc
    rw [eq_of_mem_replicate (n := numZeros + 1) hc]
    decide
  exact dropWhile_append_of_pos hzer

theorem tinyText_decimalOrder : (tinyText numZeros).decimalOrder = -numZeros := by
  rw [FloatText.decimalOrder, FloatText.lastDigitExponent, tinyText_significantDigits,
    tinyText_trimmedFraction]
  simp [FloatText.decimalExponent, tinyText]

theorem tinyText_magnitude :
    0 ≤ (tinyText numZeros).magnitude ∧ (tinyText numZeros).magnitude ≤ 1 := by
  have hv : decimalValue [(49 : UInt8)] = 1 := rfl
  have hexp : (tinyText numZeros).lastDigitExponent = -(numZeros + 1 : Nat) := by
    rw [FloatText.lastDigitExponent, tinyText_trimmedFraction]
    simp [FloatText.decimalExponent, tinyText]
  rw [FloatText.magnitude_eq, tinyText_significantDigits, hv, hexp, cast_one, one_mul]
  refine ⟨by positivity, inv_le_one_of_one_le₀ (one_le_pow₀ (by norm_num))⟩

theorem not_roundsTo_infinity {FP : FloatProperties} (hFP : FP.Supported) (hx : 0 ≤ x)
    (hx' : x ≤ 1) : ¬RoundsTo FP false x FP.infinity := by
  rintro ⟨b, hb, hnr⟩
  obtain rfl : FP.infinity = b := by simpa using hb
  have hinf : FP.infinity ≠ 0 := by
    rcases hFP with rfl | rfl <;> decide
  have htwo : (2 : ℚ) ^ (2 : Int) ≤ FP.magnitude FP.infinity := by
    rw [magnitude_infinity hFP]
    refine zpow_le_zpow_right₀ (by norm_num) ?_
    rcases hFP with rfl | rfl <;> decide
  have hz := hnr.nearest 0 (zero_le _) hinf.symm
  rw [FP.magnitude_zero, sub_zero, abs_of_nonneg hx, abs_sub_comm, abs_of_nonneg (by linarith)] at hz
  rcases hz with h | ⟨h, -⟩ <;> linarith

/-- More zeros than a number of type `i32` counts make a tiny number infinite. -/
theorem parseFloatImpl_tiny_infinite :
    (tinyText (2 ^ 31 + 1)).ExponentSmall ∧
      parseFloatImpl FloatType.f64.properties .bytes8 (tinyText (2 ^ 31 + 1)).chars =
        .ok (some FloatType.f64.properties.infinity, []) ∧
      ¬RoundsTo FloatType.f64.properties false (tinyText (2 ^ 31 + 1)).magnitude
        FloatType.f64.properties.infinity := by
  have hexponent : (tinyText (2 ^ 31 + 1)).ExponentSmall :=
    ⟨show -65536 < (0 : Int) by decide, show (0 : Int) < 65536 by decide⟩
  have hlarge : toSigned 32 (tinyText (2 ^ 31 + 1)).decimalOrder >
      FloatType.f64.properties.maxDecimalOrder := by
    rw [tinyText_decimalOrder]
    decide
  have hparse : continueParsingFiniteFloat FloatType.f64.properties .bytes8 0
      (tinyText (2 ^ 31 + 1)).unsignedChars = .ok (some (0 ||| FloatType.f64.properties.infinity), []) :=
    continueParsingFiniteFloat_of_overflow _ hexponent
      (by rw [tinyText_significantDigits]; decide) hlarge 0
  refine ⟨hexponent, ?_, not_roundsTo_infinity (supported_properties .f64)
    (tinyText_magnitude _).1 (tinyText_magnitude _).2⟩
  exact (parseFloatImpl_unsigned (by decide) _).trans hparse

end USprache.Ustlib.FloatParsing
