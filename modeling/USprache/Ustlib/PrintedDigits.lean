import Mathlib.Data.Nat.Digits.Lemmas
import USprache.Ustlib.FloatScales
import USprache.Ustlib.FloatText

/-!
# Printed digits

The digits that are printed are those of a number above the lower bound and at most the upper
bound, and the printed text denotes that number with its decimal exponent.
-/

namespace USprache.Ustlib.FloatPrinting

open CharType Library NumberParsing FloatParsing Printer List Nat Decimal

variable {n : ℕ}

theorem significantDigits_lt {k d : ℕ} (hd : d ∈ significantDigits k n) : d < 10 := by
  induction k generalizing n with
  | zero => cases hd
  | succ k ih =>
    rw [significantDigits] at hd
    split at hd
    · rcases mem_cons.1 hd with rfl | hd
      · exact mod_lt _ (by decide)
      · exact ih hd
    · cases hd

theorem ofDigits_significantDigits {k : ℕ} (hn : n < 10 ^ k) :
    ofDigits 10 (significantDigits k n) = n := by
  induction k generalizing n with
  | zero =>
    obtain rfl : n = 0 := by simpa using hn
    rfl
  | succ k ih =>
    rw [significantDigits]
    split
    · have hdiv : n / 10 < 10 ^ k := Nat.div_lt_of_lt_mul (by rwa [← pow_succ'])
      rw [ofDigits_cons, ih hdiv]
      omega
    · next hz =>
      rw [ofDigits_nil]
      omega

theorem length_significantDigits_le (k n : ℕ) : (significantDigits k n).length ≤ k := by
  induction k generalizing n with
  | zero => exact le_refl 0
  | succ k ih =>
    rw [significantDigits]
    split
    · exact succ_le_succ (ih _)
    · exact zero_le _

variable {P : Printer}

theorem length_digitArray (P : Printer) (n : ℕ) : (P.digitArray n).length = P.maxDecimalDigits := by
  have hle := length_significantDigits_le P.maxDecimalDigits n
  rw [digitArray, length_append, length_replicate]
  omega

theorem ofDigits_zeros (n : ℕ) : ofDigits 10 (replicate n 0) = 0 := by
  induction n with
  | zero => rfl
  | succ n ih => rw [replicate_succ, ofDigits_cons, ih]

theorem ofDigits_digitArray (hn : n < 10 ^ P.maxDecimalDigits) :
    ofDigits 10 (P.digitArray n) = n := by
  rw [digitArray, ofDigits_append, ofDigits_significantDigits hn, ofDigits_zeros, mul_zero,
    add_zero]

theorem digitArray_lt {d : ℕ} (hd : d ∈ P.digitArray n) : d < 10 := by
  rcases mem_append.1 hd with h | h
  · exact significantDigits_lt h
  · rw [eq_of_mem_replicate h]
    decide

theorem valueFrom_reverse (digits : List ℕ) : valueFrom 0 digits.reverse = ofDigits 10 digits := by
  induction digits with
  | nil => rfl
  | cons d digits ih =>
    rw [reverse_cons, valueFrom, foldl_append, ofDigits_cons, ← ih]
    simp only [foldl_cons, foldl_nil, valueFrom]
    rw [mul_comm, add_comm]

theorem valueFrom_zeros (n : ℕ) : valueFrom 0 (replicate n 0) = 0 := by
  rw [← reverse_replicate, valueFrom_reverse, ofDigits_zeros]

theorem valueFrom_cons_zero (d : ℕ) (digits : List ℕ) :
    valueFrom 0 (d :: digits) = d * 10 ^ digits.length + valueFrom 0 digits := by
  rw [valueFrom_cons, Nat.zero_add, valueFrom_eq]

theorem length_roundDigits (lower upper : List ℕ) :
    (roundDigits lower upper).length = lower.length := by
  induction lower generalizing upper with
  | nil => rfl
  | cons c0 lower ih =>
    cases upper with
    | nil => rfl
    | cons c1 upper =>
      rw [roundDigits]
      split
      · rw [length_cons, length_cons, length_replicate]
      · rw [length_cons, length_cons, ih]

theorem roundDigits_lt {lower upper : List ℕ} (hlo : ∀ d ∈ lower, d < 10)
    (hup : ∀ d ∈ upper, d < 10) : ∀ d ∈ roundDigits lower upper, d < 10 := by
  induction lower generalizing upper with
  | nil =>
    intro d hd
    cases hd
  | cons c0 lower ih =>
    cases upper with
    | nil => exact hlo
    | cons c1 upper =>
      intro d hd
      rw [roundDigits] at hd
      split at hd
      · rcases mem_cons.1 hd with rfl | hd
        · exact hup d mem_cons_self
        · rw [eq_of_mem_replicate hd]
          decide
      · rcases mem_cons.1 hd with rfl | hd
        · exact hlo d mem_cons_self
        · exact ih (fun d hd => hlo d (mem_cons_of_mem c0 hd))
            (fun d hd => hup d (mem_cons_of_mem c1 hd)) d hd

theorem roundDigits_between {lower upper : List ℕ} (hlen : lower.length = upper.length)
    (hlo : ∀ d ∈ lower, d < 10) (hup : ∀ d ∈ upper, d < 10)
    (hlt : valueFrom 0 lower < valueFrom 0 upper) :
    valueFrom 0 lower < valueFrom 0 (roundDigits lower upper) ∧
      valueFrom 0 (roundDigits lower upper) ≤ valueFrom 0 upper := by
  induction lower generalizing upper with
  | nil =>
    obtain rfl : upper = [] := length_eq_zero_iff.1 hlen.symm
    exact absurd hlt (lt_irrefl _)
  | cons c0 lower ih =>
    cases upper with
    | nil => cases hlen
    | cons c1 upper =>
      have hlen' : lower.length = upper.length := succ.inj hlen
      have hlo' : ∀ d ∈ lower, d < 10 := fun d hd => hlo d (mem_cons_of_mem c0 hd)
      have hup' : ∀ d ∈ upper, d < 10 := fun d hd => hup d (mem_cons_of_mem c1 hd)
      have hl := valueFrom_lt hlo' 0
      have hu := valueFrom_lt hup' 0
      rw [valueFrom_cons_zero, valueFrom_cons_zero] at hlt ⊢
      rw [hlen'] at hl hlt ⊢
      rw [roundDigits]
      split
      · next hne =>
        -- The digit of the upper bound is the greater one.
        have hless : c0 < c1 := by
          rcases lt_or_gt_of_ne hne with h | h
          · exact h
          · have hle : (c1 + 1) * 10 ^ upper.length ≤ c0 * 10 ^ upper.length :=
              mul_le_mul_right _ h
            rw [succ_mul] at hle
            omega
        have hle : (c0 + 1) * 10 ^ upper.length ≤ c1 * 10 ^ upper.length := mul_le_mul_right _ hless
        rw [succ_mul] at hle
        rw [valueFrom_cons_zero, length_replicate, valueFrom_zeros, hlen']
        omega
      · next heq =>
        obtain rfl : c0 = c1 := not_not.1 heq
        obtain ⟨hgt, hle⟩ := ih hlen' hlo' hup' (by omega)
        rw [valueFrom_cons_zero, length_roundDigits, hlen']
        omega

theorem ofDigits_take {digits : List ℕ} (h : ofDigits 10 digits < 10 ^ n)
    (hn : n ≤ digits.length) : ofDigits 10 (digits.take n) = ofDigits 10 digits := by
  have hsp : ofDigits 10 (digits.take n ++ digits.drop n) = _ := ofDigits_append
  rw [take_append_drop, length_take, min_eq_left hn] at hsp
  have hz : ofDigits 10 (digits.drop n) = 0 := by
    by_contra hne
    have hpos := Nat.le_mul_of_pos_right (10 ^ n) (pos_of_ne_zero hne)
    omega
  rw [hsp, hz, mul_zero, add_zero]

theorem lt_pow_significantDigits {k : ℕ} (hn : n < 10 ^ k) :
    n < 10 ^ (significantDigits k n).length := by
  have h := ofDigits_lt_base_pow_length (b := 10) (by decide)
    (fun d hd => significantDigits_lt (k := k) (n := n) hd)
  rwa [ofDigits_significantDigits hn] at h

theorem shortestDigits_spec {mantissa sc lower upper : ℕ}
    (hlo : lower = (mantissa - 35) * sc / 2 ^ P.FP.integerBits)
    (hup : upper = (mantissa + 75) * sc / 2 ^ P.FP.integerBits) (hlt : lower < upper)
    (hmax : upper < 10 ^ P.maxDecimalDigits) :
    (∀ d ∈ P.shortestDigits mantissa sc, d < 10) ∧
      (P.shortestDigits mantissa sc).length ≤ P.maxDecimalDigits ∧
      lower < ofDigits 10 (P.shortestDigits mantissa sc) ∧
      ofDigits 10 (P.shortestDigits mantissa sc) ≤ upper := by
  obtain ⟨digits, hds⟩ : ∃ digits, digits =
    (roundDigits (P.digitArray lower).reverse (P.digitArray upper).reverse).reverse := ⟨_, rfl⟩
  have heq : P.shortestDigits mantissa sc =
      digits.take (significantDigits P.maxDecimalDigits upper).length := by
    rw [shortestDigits, shiftRight_eq_div_pow, shiftRight_eq_div_pow, hds, hlo, hup]
    rfl
  have hlen : digits.length = P.maxDecimalDigits := by
    rw [hds, length_reverse, length_roundDigits, length_reverse, length_digitArray]
  have hv : ∀ n < 10 ^ P.maxDecimalDigits, valueFrom 0 (P.digitArray n).reverse = n := by
    intro n hn
    rw [valueFrom_reverse, ofDigits_digitArray hn]
  have hsm : ∀ n, ∀ d ∈ (P.digitArray n).reverse, d < 10 :=
    fun n d hd => digitArray_lt (mem_reverse.1 hd)
  obtain ⟨hgt, hle⟩ := roundDigits_between
    (by rw [length_reverse, length_reverse, length_digitArray, length_digitArray])
    (hsm lower) (hsm upper)
    (by rw [hv _ (hlt.trans hmax), hv _ hmax]; exact hlt)
  rw [hv _ (hlt.trans hmax)] at hgt
  rw [hv _ hmax] at hle
  rw [← reverse_reverse (roundDigits _ _), valueFrom_reverse, ← hds] at hgt hle
  have htk : ofDigits 10 (P.shortestDigits mantissa sc) = ofDigits 10 digits := by
    rw [heq]
    refine ofDigits_take (hle.trans_lt (lt_pow_significantDigits hmax)) ?_
    rw [hlen]
    exact length_significantDigits_le _ _
  refine ⟨?_, ?_, by rwa [htk], by rwa [htk]⟩
  · intro d hd
    rw [heq] at hd
    have hmem := mem_of_mem_take hd
    rw [hds] at hmem
    exact roundDigits_lt (hsm lower) (hsm upper) d (mem_reverse.1 hmem)
  · rw [heq, length_take, hlen]
    exact min_le_right _ _

section

variable {C : Type} [CharType C]

theorem toNat_digitText {d : ℕ} (hd : d < 10) : toNat (digitText d : C) = 48 + d :=
  toNat_ofNat _ (by omega)

theorem isDigit_digitText {d : ℕ} (hd : d < 10) : isDigit (digitText d : C) = true := by
  rw [isDigit_iff, toNat_digitText hd, zeroChar, nineChar]
  omega

variable {digits : List ℕ} {d : ℤ}

theorem decimalValue_digits (hds : ∀ d ∈ digits, d < 10) :
    decimalValue (digits.map digitText : List C) = valueFrom 0 digits := by
  have hmap : (digits.map digitText : List C).map digitOf = digits := by
    rw [map_map]
    conv_rhs => rw [← map_id digits]
    refine map_congr_left fun d hd => ?_
    rw [Function.comp_apply, digitOf, toNat_digitText (hds d hd), zeroChar, Nat.add_sub_cancel_left,
      id]
  rw [decimalValue, hmap]

def digitsOf (digits : List ℕ) (hne : digits ≠ []) (hdigits : ∀ d ∈ digits, d < 10) : Digits C :=
  ⟨digits.reverse.map digitText, by simpa using hne, by
    intro c hc
    obtain ⟨d, hd, rfl⟩ := mem_map.1 hc
    exact isDigit_digitText (hdigits d (mem_reverse.1 hd))⟩

theorem decimalValue_reverse (hds : ∀ d ∈ digits, d < 10) :
    decimalValue (digits.reverse.map digitText : List C) = ofDigits 10 digits := by
  rw [decimalValue_digits fun d hd => hds d (mem_reverse.1 hd), valueFrom_reverse]

theorem ofDigits_drop_numZeros (digits : List ℕ) : ofDigits 10 digits =
    10 ^ numZeros digits * ofDigits 10 (digits.drop (numZeros digits)) := by
  rw [numZeros]
  induction digits with
  | nil => rfl
  | cons d digits ih =>
    by_cases hd : d = 0
    · rw [ofDigits_cons, ih, takeWhile_cons_of_pos (by simpa using hd), length_cons,
        drop_succ_cons, hd]
      ring
    · rw [takeWhile_cons_of_neg (by simpa using hd)]
      simp

theorem numZeros_le (digits : List ℕ) : numZeros digits ≤ digits.length :=
  (List.takeWhile_prefix _).length_le

theorem fitsCounters_of_short (FP : FloatProperties) (sz : SizeType) (t : FloatText C)
    (hint : t.integerDigits.1.length ≤ 30) (hfr : t.fractionalDigits.length ≤ 30)
    (hlo : -1000 ≤ t.decimalExponent) (hup : t.decimalExponent ≤ 1000) :
    t.FitsCounters FP sz := by
  intro _
  have htri : t.trimmedFraction.length ≤ t.fractionalDigits.length :=
    (List.rdropWhile_prefix isZero _).length_le
  have hds : t.significantDigits.length ≤ 60 := by
    refine (length_dropWhile_le _ _).trans ?_
    rw [length_append]
    omega
  have hla : t.lastDigitExponent = t.decimalExponent - t.trimmedFraction.length := rfl
  have hord : t.decimalOrder = t.lastDigitExponent + t.significantDigits.length := rfl
  refine ⟨by omega, by omega, fun _ _ => ⟨by omega, ?_⟩⟩
  have hsz := two_pow_sizeBits sz
  rw [log10DivLog2Fixed8]
  omega

theorem exponentDigits_spec (hP : P.Supported) {e : ℕ} (he : e ≤ P.exponentLimit + 25) :
    P.exponentDigits e ≠ [] ∧ (∀ d ∈ P.exponentDigits e, d < 10) ∧
      valueFrom 0 (P.exponentDigits e) = e := by
  rcases hP with rfl | rfl
  · have hlim : printerF32.exponentLimit = 60 := rfl
    change exponentDigitsF32 e ≠ [] ∧ (∀ d ∈ exponentDigitsF32 e, d < 10) ∧
      valueFrom 0 (exponentDigitsF32 e) = e
    rw [exponentDigitsF32]
    split
    · refine ⟨by simp, ?_, ?_⟩
      · simp
        omega
      · simp
        omega
    · refine ⟨by simp, ?_, ?_⟩
      · simp
        omega
      · simp
        omega
  · have hlim : printerF64.exponentLimit = 330 := rfl
    change exponentDigitsF64 e ≠ [] ∧ (∀ d ∈ exponentDigitsF64 e, d < 10) ∧
      valueFrom 0 (exponentDigitsF64 e) = e
    rw [exponentDigitsF64]
    split
    · split
      · refine ⟨by simp, ?_, ?_⟩
        · simp
          omega
        · simp
          omega
      · refine ⟨by simp, ?_, ?_⟩
        · simp
          omega
        · simp
          omega
    · refine ⟨by simp, ?_, ?_⟩
      · simp
        omega
      · simp
        omega

theorem exists_exponent (hP : P.Supported) (hd : d.natAbs ≤ P.exponentLimit + 25) :
    ∃ ex : Option (ExponentText C), ∀ (negative : Bool) (integerDs : Digits C)
      (fraction : Option (Digits C)),
      (FloatText.mk negative integerDs fraction ex).exponentChars = P.exponentText d ∧
        (FloatText.mk negative integerDs fraction ex).decimalExponent = d := by
  by_cases hz : d = 0
  · refine ⟨none, fun _ _ _ => ⟨?_, hz.symm⟩⟩
    rw [exponentText, if_neg (by simpa using hz)]
    rfl
  have hds : ∀ e : ℕ, e ≤ P.exponentLimit + 25 →
      ∃ digits : Digits C, digits.1 = (P.exponentDigits e).map digitText ∧
        decimalValue digits.1 = e := by
    intro e he
    obtain ⟨hne, hlt, hv⟩ := exponentDigits_spec hP he
    refine ⟨⟨(P.exponentDigits e).map digitText, by simpa using hne, ?_⟩, rfl, ?_⟩
    · intro c hc
      obtain ⟨d, hd, rfl⟩ := mem_map.1 hc
      exact isDigit_digitText (hlt d hd)
    · rw [decimalValue_digits hlt, hv]
  rw [exponentText, if_pos hz]
  by_cases hpos : d > 0
  · obtain ⟨digits, hchs, hv⟩ := hds d.toNat (by omega)
    refine ⟨some ⟨false, .absent, digits⟩, fun _ _ _ => ⟨?_, ?_⟩⟩
    · rw [if_pos hpos, ← hchs]
      rfl
    · simp only [FloatText.decimalExponent, ExponentText.value, reduceCtorEq, if_false]
      omega
  · obtain ⟨digits, hchs, hv⟩ := hds (-d).toNat (by omega)
    refine ⟨some ⟨false, .minus, digits⟩, fun _ _ _ => ⟨?_, ?_⟩⟩
    · rw [if_neg hpos, ← hchs]
      rfl
    · simp only [FloatText.decimalExponent, ExponentText.value, if_true]
      omega

/-- A printed text with the digits `digits` and the decimal exponent `d`. -/
structure Prints (digits : List ℕ) (d : ℤ) (negative : Bool) (chars : List C) (text : FloatText C) :
    Prop where
  negative_eq : text.negative = negative
  unsignedChars_eq : text.unsignedChars = chars
  magnitude_eq : text.magnitude = (ofDigits 10 digits : ℕ) * 10 ^ d
  length_integer : text.integerDigits.1.length ≤ digits.length + 1
  length_fraction : text.fractionalDigits.length ≤ digits.length
  exponent_le : text.decimalExponent.natAbs ≤ d.natAbs + digits.length

theorem exists_fractionText (hds : ∀ d ∈ digits, d < 10)
    (hn : n ≤ digits.length) (negative : Bool) :
    ∃ t : FloatText C, Prints digits (-n) negative
      ((if digits.length - n = 0 then [ofNat 48] else (digits.drop n).reverse.map digitText) ++
        fractionText (digits.take n)) t := by
  have hdr : ∀ d ∈ digits.drop n, d < 10 := fun d hd => hds d (mem_of_mem_drop hd)
  have htk : ∀ d ∈ (digits.take n).drop (numZeros (digits.take n)), d < 10 :=
    fun d hd => hds d (mem_of_mem_take (mem_of_mem_drop hd))
  obtain ⟨z, hz⟩ : ∃ z, z = numZeros (digits.take n) := ⟨_, rfl⟩
  have hzn : z ≤ n := by
    have h := numZeros_le (digits.take n)
    rw [length_take] at h
    omega
  -- The integer part and its value.
  obtain ⟨integerDs, hint, hv, hlen⟩ : ∃ integerDs : Digits C,
      integerDs.1 = (if digits.length - n = 0 then [ofNat 48]
        else (digits.drop n).reverse.map digitText) ∧
      decimalValue integerDs.1 = ofDigits 10 (digits.drop n) ∧
      integerDs.1.length ≤ digits.length + 1 := by
    by_cases he : digits.length - n = 0
    · refine ⟨Digits.single (digitText 0) (isDigit_digitText (by decide)), ?_, ?_, ?_⟩
      · rw [if_pos he]
        rfl
      · rw [drop_of_length_le (by omega)]
        exact decimalValue_digits (show ∀ d ∈ [0], d < 10 by simp)
      · exact le_add_left _ _
    · refine ⟨digitsOf (digits.drop n) (by rw [Ne, drop_eq_nil_iff]; omega) hdr, ?_,
        decimalValue_reverse hdr, ?_⟩
      · rw [if_neg he]
        rfl
      · simp only [digitsOf, length_map, length_reverse, length_drop]
        omega
  -- The fractional part and its value.
  obtain ⟨fraction, hchs, hfr⟩ : ∃ fraction : Option (Digits C),
      (FloatText.mk negative integerDs fraction none).fractionChars = fractionText (digits.take n) ∧
      (FloatText.mk negative integerDs fraction none).fractionalDigits =
        ((digits.take n).drop z).reverse.map digitText := by
    rw [fractionText, ← hz, length_take, min_eq_left hn]
    by_cases hlt : z < n
    · refine ⟨some (digitsOf ((digits.take n).drop z) ?_ (hz ▸ htk)), ?_, rfl⟩
      · rw [Ne, drop_eq_nil_iff, length_take]
        omega
      · rw [if_pos hlt]
        rfl
    · refine ⟨none, ?_, ?_⟩
      · rw [if_neg hlt]
        rfl
      · rw [drop_of_length_le (by rw [length_take]; omega)]
        rfl
  have hlenFr : (((digits.take n).drop z).reverse.map digitText : List C).length = n - z := by
    rw [length_map, length_reverse, length_drop, length_take, min_eq_left hn]
  refine ⟨⟨negative, integerDs, fraction, none⟩, rfl, ?_, ?_, hlen, ?_, zero_le _⟩
  · rw [FloatText.unsignedChars, hchs, ← hint, FloatText.exponentChars, append_nil]
  · have hsp : ofDigits 10 (digits.take n ++ digits.drop n) = _ := ofDigits_append
    rw [take_append_drop, length_take, min_eq_left hn,
      ofDigits_drop_numZeros (digits.take n), ← hz] at hsp
    rw [FloatText.magnitude, hfr, FloatText.decimalExponent]
    rw [decimalValue_append, hv, decimalValue_reverse (hz ▸ htk), hlenFr, hsp]
    have hexp : -(n : ℤ) = -z + -(n - z : ℕ) := by omega
    have hpow : 10 ^ n = 10 ^ z * 10 ^ (n - z) := by
      rw [← pow_add, Nat.add_sub_cancel' hzn]
    rw [hexp, zpow_add₀ (by norm_num), hpow, zpow_neg (10 : ℚ) z, zpow_natCast]
    push_cast
    field_simp
    ring_nf
  · rw [hfr]
    omega

theorem exists_exponentText (hP : P.Supported) (hds : ∀ d ∈ digits, d < 10)
    (hpos : 0 < ofDigits 10 digits)
    (hd : (d + numZeros digits).natAbs ≤ P.exponentLimit + 25) (negative : Bool) :
    ∃ t : FloatText C, Prints digits d negative
      ((digits.drop (numZeros digits)).reverse.map digitText ++
        P.exponentText (d + numZeros digits)) t := by
  have hdr : ∀ d ∈ digits.drop (numZeros digits), d < 10 := fun d hd => hds d (mem_of_mem_drop hd)
  have hv := ofDigits_drop_numZeros digits
  have hle := numZeros_le digits
  have hne : digits.drop (numZeros digits) ≠ [] := by
    intro hnil
    rw [hv, hnil] at hpos
    exact absurd hpos (lt_irrefl 0)
  obtain ⟨ex, hexponent⟩ := exists_exponent (C := C) hP hd
  obtain ⟨hchs, hexponent⟩ := hexponent negative (digitsOf _ hne hdr) none
  refine ⟨⟨negative, digitsOf _ hne hdr, none, ex⟩, rfl, ?_, ?_, ?_, zero_le _, ?_⟩
  · rw [FloatText.unsignedChars, hchs]
    rfl
  · rw [FloatText.magnitude, hexponent, FloatText.fractionalDigits]
    rw [append_nil, hv]
    have hint : decimalValue (digitsOf (C := C) _ hne hdr).1 =
        ofDigits 10 (digits.drop (numZeros digits)) := decimalValue_reverse hdr
    rw [hint, length_nil, cast_zero, sub_zero, zpow_add₀ (by norm_num), zpow_natCast]
    push_cast
    ring
  · simp only [digitsOf, length_map, length_reverse, length_drop]
    omega
  · omega

theorem exists_numberText (hP : P.Supported) (hds : ∀ d ∈ digits, d < 10)
    (hpos : 0 < ofDigits 10 digits) (hlen : digits.length ≤ 20)
    (hd : d.natAbs ≤ P.exponentLimit + 1) (negative : Bool) :
    ∃ t : FloatText C, Prints digits d negative (P.numberText digits d) t := by
  have hle := numZeros_le digits
  by_cases hfr : d < 0 ∧ (-d).toNat ≤ digits.length
  · obtain ⟨n, hn⟩ : ∃ n : ℕ, d = -n := ⟨(-d).toNat, by omega⟩
    have hn' : (-d).toNat = n := by omega
    obtain ⟨t, ht⟩ := exists_fractionText (C := C) hds (show n ≤ digits.length by omega) negative
    refine ⟨t, ?_⟩
    have hnum : (P.numberText digits d : List C) =
        (if digits.length - n = 0 then [ofNat 48] else (digits.drop n).reverse.map digitText) ++
          fractionText (digits.take n) := by
      rw [numberText]
      simp only [if_pos hfr, add_zero]
      have hz : (P.exponentText 0 : List C) = [] := if_neg fun h => h rfl
      rw [hn', if_pos (show n > 0 by omega), hz, append_nil]
    rw [hnum, hn]
    exact ht
  · obtain ⟨t, ht⟩ := exists_exponentText (C := C) hP hds hpos (d := d) (by omega) negative
    refine ⟨t, ?_⟩
    have hne : digits.length - 0 ≠ 0 := by
      rintro h
      obtain rfl : digits = [] := length_eq_zero_iff.1 h
      exact absurd hpos (lt_irrefl 0)
    have hnum : (P.numberText digits d : List C) =
        (digits.drop (numZeros digits)).reverse.map digitText ++
          P.exponentText (d + numZeros digits) := by
      rw [numberText]
      simp only [if_neg hfr, Nat.zero_add, if_neg hne]
      rw [if_neg (lt_irrefl 0), nil_append]
    rw [hnum]
    exact ht

end

end USprache.Ustlib.FloatPrinting
