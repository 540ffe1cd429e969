import USprache.Ustlib.FloatFormat
import USprache.Ustlib.LongArithmetic

/-!
# Rounding of long numbers

The bits that the parser reads from the words of a long number, and the number that they
are rounded to.
-/

namespace USprache.Ustlib.FloatParsing

open Nat

theorem testBit_word (V i j : Nat) : (V / 2 ^ (wordBits * i) % 2 ^ wordBits).testBit j =
    (decide (j < wordBits) && V.testBit (wordBits * i + j)) := by
  rw [testBit_mod_two_pow, testBit_div_two_pow, add_comm]

theorem lastOneBitOfWord_eq {w : Nat} (hwd : w < 2 ^ wordBits) (hne : w ≠ 0) :
    lastOneBitOfWord w = log2 w := by
  have hlt : log2 w < wordBits := (log2_lt hne).2 hwd
  rw [lastOneBitOfWord]
  omega

theorem log2_div_word {V : Nat} (h : V / 2 ^ wordBits ≠ 0) :
    log2 V = log2 (V / 2 ^ wordBits) + wordBits := by
  have hle : 2 ^ wordBits ≤ V := by
    by_contra hlt
    exact h (div_eq_of_lt (Nat.lt_of_not_le hlt))
  have hlog : wordBits ≤ log 2 V := le_log_of_pow_le (by decide) hle
  rw [log2_eq_log_two, log2_eq_log_two, log_div_base_pow]
  omega

theorem findLastOneBit_toWords {n V : Nat} (hV : V < 2 ^ (wordBits * n)) :
    findLastOneBit (toWords n V) = if V = 0 then none else some (log2 V) := by
  induction n generalizing V with
  | zero =>
    obtain rfl : V = 0 := by simpa using hV
    simp [toWords, findLastOneBit]
  | succ n ih =>
    rw [toWords, findLastOneBit, ih (div_word_lt hV)]
    by_cases hhi : V / 2 ^ wordBits = 0
    · have hlt : V < 2 ^ wordBits := by
        rcases Nat.div_eq_zero_iff.1 hhi with h | h
        · exact absurd h (Nat.two_pow_pos wordBits).ne'
        · exact h
      rw [if_pos hhi, mod_eq_of_lt hlt]
      by_cases hz : V = 0
      · simp [hz]
      · simp [lastOneBitOfWord_eq hlt hz]
    · have hne : V ≠ 0 := by
        rintro rfl
        simp at hhi
      rw [if_neg hhi, if_neg hne, log2_div_word hhi]

def window (B V L : Nat) : Nat := V % 2 ^ L * 2 ^ B / 2 ^ L

theorem testBit_window (B V L j : Nat) : (window B V L).testBit j =
    (decide (j < B) && (decide (B ≤ L + j) && V.testBit (L + j - B))) := by
  rw [window, testBit_div_two_pow, testBit_mul_two_pow]
  by_cases hj : j < B
  · by_cases hB : B ≤ L + j
    · simp [hj, add_comm j L, show L + j - B < L by omega]
    · simp [hB, add_comm j L]
  · simp [hj, add_comm j L, show ¬L + j - B < L by omega]

theorem window_shiftRight {m B : Nat} (h : m ≤ B) (V L : Nat) :
    window B V L >>> (B - m) = window m V L := by
  refine eq_of_testBit_eq fun j => ?_
  rw [testBit_shiftRight, testBit_window, testBit_window]
  have hlt : B - m + j < B ↔ j < m := by omega
  have hle : B ≤ L + (B - m + j) ↔ m ≤ L + j := by omega
  simp only [hlt, hle, show L + (B - m + j) - B = L + j - m by omega]

section

variable {V L i shift : Nat} (hL : L = wordBits * i + shift)

include hL

theorem testBit_highWord {B : Nat} (hsh : shift ≤ wordBits)
    (hB : wordBits ≤ B) (j : Nat) :
    ((V / 2 ^ (wordBits * i) % 2 ^ wordBits) <<< (B - shift) % 2 ^ B).testBit j =
      (decide (j < B) && (decide (B - shift ≤ j) && V.testBit (L + j - B))) := by
  rw [testBit_mod_two_pow, testBit_shiftLeft, testBit_word]
  by_cases hj : j < B
  · by_cases hlow : B - shift ≤ j
    · have hix : wordBits * i + (j - (B - shift)) = L + j - B := by omega
      simp [hix, show j - (B - shift) < wordBits by omega]
    · simp [hlow]
  · simp [hj]

theorem window_one {B : Nat} (hsh : shift ≤ wordBits)
    (hB : wordBits ≤ B) (h : i = 0 ∨ B ≤ shift) :
    (V / 2 ^ (wordBits * i) % 2 ^ wordBits) <<< (B - shift) % 2 ^ B = window B V L := by
  refine eq_of_testBit_eq fun j => ?_
  rw [testBit_highWord hL hsh hB, testBit_window]
  by_cases hj : j < B
  · have hiff : B - shift ≤ j ↔ B ≤ L + j := by
      rcases h with rfl | h <;> omega
    simp only [hiff]
  · simp [hj]

theorem window32_two (hi : 0 < i) (hsh : shift < wordBits) :
    (V / 2 ^ (wordBits * i) % 2 ^ wordBits) <<< (32 - shift) % 2 ^ 32 |||
      (V / 2 ^ (wordBits * (i - 1)) % 2 ^ wordBits) >>> shift = window 32 V L := by
  refine eq_of_testBit_eq fun j => ?_
  rw [testBit_or, testBit_highWord hL hsh.le (by decide), testBit_window,
    testBit_shiftRight, testBit_word]
  simp only [wordBits] at hL hsh ⊢
  by_cases hj : j < 32
  · by_cases hlow : 32 - shift ≤ j
    · simp [hlow, show ¬shift + j < 32 by omega, show 32 ≤ L + j by omega]
    · have hix : 32 * (i - 1) + (shift + j) = L + j - 32 := by omega
      simp [hj, hix, show shift + j < 32 by omega, show 32 ≤ L + j by omega]
  · simp [hj, show ¬shift + j < 32 by omega]

theorem testBit_middleWord (hi : 0 < i) (hsh : shift ≤ wordBits)
    (hpos : 0 < shift) (j : Nat) :
    ((V / 2 ^ (wordBits * (i - 1)) % 2 ^ wordBits) <<< (wordBits - shift) % 2 ^ 64).testBit j =
      (decide (32 - shift ≤ j) && (decide (j < 64 - shift) && V.testBit (L + j - 64))) := by
  rw [testBit_mod_two_pow, testBit_shiftLeft, testBit_word]
  simp only [wordBits] at hL hsh ⊢
  by_cases hlow : 32 - shift ≤ j
  · by_cases hhi : j < 64 - shift
    · have hix : 32 * (i - 1) + (j - (32 - shift)) = L + j - 64 := by omega
      simp [hhi, hix, show j < 64 by omega, show j - (32 - shift) < 32 by omega]
    · simp [hhi, show ¬j - (32 - shift) < 32 by omega]
  · simp [hlow]

theorem window64_two (hi : i = 1) (hsh : shift ≤ wordBits)
    (hpos : 0 < shift) :
    (V / 2 ^ (wordBits * i) % 2 ^ wordBits) <<< (64 - shift) % 2 ^ 64 |||
      (V / 2 ^ (wordBits * (i - 1)) % 2 ^ wordBits) <<< (wordBits - shift) % 2 ^ 64 =
        window 64 V L := by
  refine eq_of_testBit_eq fun j => ?_
  rw [testBit_or, testBit_highWord hL hsh (by decide), testBit_window,
    testBit_middleWord hL (by omega) hsh hpos]
  simp only [wordBits] at hL hsh
  have hiff : 32 - shift ≤ j ↔ 64 ≤ L + j := by omega
  by_cases hj : j < 64
  · by_cases hhi : 64 - shift ≤ j
    · simp [hhi, show 64 ≤ L + j by omega]
    · simp [hj, hhi, hiff, show j < 64 - shift by omega]
  · simp [hj, show ¬j < 64 - shift by omega]

theorem window64_three (hi : 1 < i) (hsh : shift ≤ wordBits)
    (hpos : 0 < shift) :
    (V / 2 ^ (wordBits * i) % 2 ^ wordBits) <<< (64 - shift) % 2 ^ 64 |||
        (V / 2 ^ (wordBits * (i - 1)) % 2 ^ wordBits) <<< (wordBits - shift) % 2 ^ 64 |||
      (V / 2 ^ (wordBits * (i - 2)) % 2 ^ wordBits) >>> shift = window 64 V L := by
  refine eq_of_testBit_eq fun j => ?_
  rw [testBit_or, testBit_or, testBit_highWord hL hsh (by decide), testBit_window,
    testBit_middleWord hL (by omega) hsh hpos, testBit_shiftRight, testBit_word]
  simp only [wordBits] at hL hsh ⊢
  by_cases hj : j < 64
  · by_cases hhi : 64 - shift ≤ j
    · simp [hhi, show ¬shift + j < 32 by omega,
        show 64 ≤ L + j by omega]
    · by_cases hmid : 32 - shift ≤ j
      · simp [hj, hmid, show j < 64 - shift by omega, show ¬shift + j < 32 by omega,
          show 64 ≤ L + j by omega]
      · have hix : 32 * (i - 2) + (shift + j) = L + j - 64 := by omega
        simp [hj, hmid, hix, show shift + j < 32 by omega, show 64 ≤ L + j by omega]
  · simp [hj, show ¬j < 64 - shift by omega, show ¬shift + j < 32 by omega]

end

variable {FP : FloatProperties} {n V : Nat}

theorem extractMantissa_toWords (hB : FP.integerBits = 32 ∨ FP.integerBits = 64)
    (hm : FP.numMantissaBits ≤ FP.integerBits) {L : Nat} (hL : L < wordBits * n) :
    extractMantissa FP (toWords n V) L = .ok (window FP.numMantissaBits V L) := by
  rw [extractMantissa]
  split
  · next hpos =>
    simp only
    obtain ⟨i, hi⟩ : ∃ i, i = (L - 1) / wordBits := ⟨_, rfl⟩
    obtain ⟨shift, hsh⟩ : ∃ shift, shift = 1 + (L - 1) % wordBits := ⟨_, rfl⟩
    have hsum : L = wordBits * i + shift := by
      have h := div_add_mod (L - 1) wordBits
      rw [← hi] at h
      omega
    have hle : shift ≤ wordBits := by
      have h := mod_lt (L - 1) (show 0 < wordBits by decide)
      omega
    have hin : i < n := by
      rw [hi]
      exact Nat.div_lt_of_lt_mul (by omega)
    rw [← hi, ← hsh, getWord_toWords V hin, ← window_shiftRight hm]
    have hpos' : 0 < shift := by omega
    have hget : ∀ k ≤ i, getWord (toWords n V) (i - k) =
        .ok (V / 2 ^ (wordBits * (i - k)) % 2 ^ wordBits) :=
      fun k _ => getWord_toWords V (by omega)
    rcases hB with hB | hB
    · simp only [hB, if_true, bind, Except.bind]
      by_cases h : i > 0 ∧ shift < wordBits
      · rw [if_pos h, hget 1 h.1]
        simp only
        rw [window32_two hsum h.1 h.2]
      · rw [if_neg h, ← window_one hsum hle (by decide)]
        by_contra hnot
        push Not at hnot
        exact h ⟨pos_of_ne_zero hnot.1, hnot.2⟩
    · simp only [hB, if_neg (show ¬(64 = 32) by decide), bind, Except.bind]
      by_cases h : i > 0
      · rw [if_pos h, hget 1 h]
        simp only
        by_cases h' : i > 1
        · rw [if_pos h', hget 2 h']
          simp only
          rw [window64_three hsum h' hle hpos']
        · rw [if_neg h', window64_two hsum (by omega) hle hpos']
      · rw [if_neg h, window_one hsum hle (by decide) (.inl (by omega))]
  · next hz =>
    obtain rfl : L = 0 := by omega
    rw [window, Nat.pow_zero, mod_one, Nat.zero_mul]

theorem foldl_or_eq_zero (words : List Nat) (x : Nat) :
    words.foldl (· ||| ·) x = 0 ↔ x = 0 ∧ ∀ w ∈ words, w = 0 := by
  induction words generalizing x with
  | nil => simp
  | cons w words ih =>
    rw [List.foldl_cons, ih]
    simp [and_assoc]

theorem forall_toWords_eq_zero (n V : Nat) :
    (∀ w ∈ toWords n V, w = 0) ↔ V % 2 ^ (wordBits * n) = 0 := by
  induction n generalizing V with
  | zero => simp [toWords, mod_one]
  | succ n ih =>
    rw [toWords, List.forall_mem_cons, ih, mul_succ, add_comm, pow_add, mod_mul,
      Nat.add_eq_zero_iff, mul_eq_zero]
    tauto

/-- The bits below the bit `f` are those of the lower words and of the lower part of its word. -/
theorem sticky_eq_zero_iff (V i k : Nat) (hk : k ≤ wordBits) : V % 2 ^ (wordBits * i + k) = 0 ↔
    V / 2 ^ (wordBits * i) % 2 ^ wordBits % 2 ^ k = 0 ∧ V % 2 ^ (wordBits * i) = 0 := by
  have hpow : 2 ^ (wordBits * i) ≠ 0 := (Nat.two_pow_pos _).ne'
  rw [pow_add, mod_mul, Nat.add_eq_zero_iff, mul_eq_zero,
    mod_mod_of_dvd _ (pow_dvd_pow 2 hk)]
  tauto

theorem and_bit_ne_zero (V i k : Nat) (hk : k < wordBits) :
    (V / 2 ^ (wordBits * i) % 2 ^ wordBits) &&& 1 <<< k ≠ 0 ↔ V.testBit (wordBits * i + k) = true := by
  rw [one_shiftLeft, and_two_pow, testBit_word]
  simp only [hk]
  cases V.testBit (wordBits * i + k) <;> simp

theorem needRoundUp_toWords {L p : Nat} (hp : p ≤ L) (hL : L + 1 - p < wordBits * n)
    (hasRemainder : Bool) :
    ∃ roundUp, needRoundUp (toWords n V) L p hasRemainder = .ok roundUp ∧
      (roundUp = true ↔ V.testBit (L - p) = true ∧
        (V % 2 ^ (L - p) ≠ 0 ∨ hasRemainder = true ∨ V.testBit (L - p + 1) = true)) := by
  obtain ⟨f, hf⟩ : ∃ f, f = L - p := ⟨_, rfl⟩
  have hbit : L + 1 - p = f + 1 := by omega
  have hsum : wordBits * (f / wordBits) + f % wordBits = f := div_add_mod f wordBits
  have hsum' : wordBits * ((f + 1) / wordBits) + (f + 1) % wordBits = f + 1 :=
    div_add_mod (f + 1) wordBits
  have hmod : f % wordBits < wordBits := mod_lt _ (by decide)
  have hmod' : (f + 1) % wordBits < wordBits := mod_lt _ (by decide)
  have hix : f / wordBits < n := Nat.div_lt_of_lt_mul (by omega)
  have hi' : (f + 1) / wordBits < n := Nat.div_lt_of_lt_mul (by omega)
  have hgua := and_bit_ne_zero V (f / wordBits) (f % wordBits) hmod
  have htie := and_bit_ne_zero V ((f + 1) / wordBits) ((f + 1) % wordBits) hmod'
  rw [hsum] at hgua
  rw [hsum'] at htie
  rw [needRoundUp, if_pos hp]
  simp only
  rw [← hf, hbit, getWord_toWords V hix]
  simp only [bind, Except.bind]
  by_cases hgua' : V.testBit f = true
  · rw [if_pos (hgua.2 hgua'), take_toWords hix.le, one_shiftLeft, and_two_pow_sub_one_eq_mod]
    have hsti := sticky_eq_zero_iff V (f / wordBits) (f % wordBits) hmod.le
    rw [hsum, ← forall_toWords_eq_zero, ← foldl_or_eq_zero] at hsti
    split
    · next h =>
      rw [getWord_toWords V hi']
      simp only [htie]
      refine ⟨_, rfl, ?_⟩
      have hz := hsti.2 h.1
      have hrem : hasRemainder = false := by simpa using h.2
      simp [hgua', hz, hrem]
    · next h =>
      refine ⟨true, rfl, ?_⟩
      cases hasRemainder <;> simp_all
  · rw [if_neg (hgua.not.2 hgua')]
    exact ⟨false, rfl, by simp [hgua']⟩

theorem needRoundUp_of_lt (words : List Nat) {L p : Nat} (hp : L < p) :
    needRoundUp words L p false = .ok false := by
  rw [needRoundUp, if_neg (by omega)]
  rfl

theorem toSigned_eq_self {z : Int} (hle : -2 ^ 31 ≤ z) (hlt : z < 2 ^ 31) : toSigned 32 z = z :=
  Int.bmod_eq_of_le (by omega) (by omega)

theorem fields_eq (hFP : FP.Supported) {e M : Nat} (he : e < FP.maxExponentValue)
    (hM : M < 2 ^ FP.numMantissaBits) :
    toUnsigned FP.integerBits e * 2 ^ FP.numMantissaBits % 2 ^ FP.integerBits ||| M =
      e * 2 ^ FP.numMantissaBits + M := by
  have hmax : FP.maxExponentValue < 2 ^ FP.numExponentBits := sub_lt (Nat.two_pow_pos _) (by decide)
  have hbts : FP.numExponentBits + FP.numMantissaBits ≤ FP.integerBits := by
    have h := hFP.mantissa_lt
    rw [FloatProperties.numExponentBits]
    omega
  have hlt : e * 2 ^ FP.numMantissaBits < 2 ^ FP.integerBits := by
    calc e * 2 ^ FP.numMantissaBits < 2 ^ FP.numExponentBits * 2 ^ FP.numMantissaBits :=
          mul_lt_mul_of_pos_right (by omega) (Nat.two_pow_pos _)
      _ ≤ 2 ^ FP.integerBits := by
          rw [← pow_add]
          exact Nat.pow_le_pow_right (by decide) hbts
  have hle : e ≤ e * 2 ^ FP.numMantissaBits := Nat.le_mul_of_pos_right e (Nat.two_pow_pos _)
  have hun : toUnsigned FP.integerBits e = e := by
    rw [toUnsigned]
    have h : (e : Int) % 2 ^ FP.integerBits = e := by
      refine Int.emod_eq_of_lt (by omega) ?_
      exact_mod_cast lt_of_le_of_lt hle hlt
    rw [h, Int.toNat_natCast]
  rw [hun, mod_eq_of_lt hlt, mul_comm, two_pow_add_eq_or_of_lt hM]

theorem composeFloat_eq (hFP : FP.Supported) (sign : Nat) {e M : Nat} (he : e < 2 ^ 31 - 1)
    (hM : M < 2 ^ FP.numMantissaBits) (roundUp : Bool) :
    composeFloat FP sign M e roundUp =
      sign ||| min (e * 2 ^ FP.numMantissaBits + M + roundUp.toNat) FP.infinity := by
  -- The mantissa and the exponent after rounding, and whether the exponent is too large.
  have hfin : ∀ e' M' : Nat, M' < 2 ^ FP.numMantissaBits →
      (if (e' : Int) ≥ FP.maxExponentValue then sign ||| FP.infinity
        else sign ||| toUnsigned FP.integerBits e' * 2 ^ FP.numMantissaBits % 2 ^ FP.integerBits ||| M') =
      sign ||| min (e' * 2 ^ FP.numMantissaBits + M') FP.infinity := by
    intro e' M' hM'
    by_cases hlg : FP.maxExponentValue ≤ e'
    · have hle : FP.infinity ≤ e' * 2 ^ FP.numMantissaBits := mul_le_mul_right _ hlg
      rw [if_pos (by exact_mod_cast hlg), min_eq_right (by omega)]
    · have hle : (e' + 1) * 2 ^ FP.numMantissaBits ≤ FP.infinity :=
        mul_le_mul_right _ (Nat.lt_of_not_le hlg)
      rw [succ_mul] at hle
      rw [if_neg (by exact_mod_cast hlg), Nat.or_assoc, fields_eq hFP (Nat.lt_of_not_le hlg) hM',
        min_eq_left (by omega)]
  rw [composeFloat]
  cases roundUp with
  | false =>
    exact hfin e M hM
  | true =>
    simp only [Bool.toNat_true]
    by_cases hcar : M + 1 = 2 ^ FP.numMantissaBits
    · have hbit : (M + 1) &&& 2 ^ FP.numMantissaBits ≠ 0 := by
        rw [hcar, Nat.and_self]
        exact (Nat.two_pow_pos _).ne'
      have hsg : toSigned 32 ((e : Int) + 1) = (e + 1 : Nat) :=
        toSigned_eq_self (by omega) (by omega)
      have hsum : e * 2 ^ FP.numMantissaBits + M + 1 = (e + 1) * 2 ^ FP.numMantissaBits + 0 := by
        rw [succ_mul]
        omega
      rw [if_pos hbit, hsum]
      rw [hsg]
      exact hfin (e + 1) 0 (Nat.two_pow_pos _)
    · have hbit : ¬((M + 1) &&& 2 ^ FP.numMantissaBits ≠ 0) := by
        rw [and_two_pow, testBit_lt_two_pow (by omega)]
        simp
      rw [if_neg hbit]
      exact hfin e (M + 1) (by omega)

section

variable {L : Nat}

theorem window_add (hV : V ≠ 0) (hL : L = log2 V) (m : Nat) :
    2 ^ m + window m V L = V * 2 ^ m / 2 ^ L := by
  have hle : 2 ^ L ≤ V := hL ▸ log2_self_le hV
  have hlt : V < 2 ^ (L + 1) := hL ▸ lt_log2_self
  have hmod : V % 2 ^ L = V - 2 ^ L := by
    rw [mod_eq_sub_mod hle]
    refine mod_eq_of_lt ?_
    omega
  have hsum : V * 2 ^ m = V % 2 ^ L * 2 ^ m + 2 ^ L * 2 ^ m := by
    rw [hmod, ← add_mul, Nat.sub_add_cancel hle]
  rw [hsum, window, add_mul_div_left _ _ (Nat.two_pow_pos L), add_comm]

theorem window_lt (m V L : Nat) : window m V L < 2 ^ m := by
  have hlt : V % 2 ^ L < 2 ^ L := mod_lt _ (Nat.two_pow_pos L)
  rw [window, div_lt_iff_lt_mul (Nat.two_pow_pos L), mul_comm]
  exact mul_lt_mul_of_pos_left hlt (Nat.two_pow_pos m)

/-- The quotient that is rounded: the mantissa is shifted by further bits if the number is
subnormal. -/
theorem window_add_shift (hV : V ≠ 0) (hL : L = log2 V) {m shift f : Nat} (hm : m ≤ L)
    (hf : L + shift = f + 1 + m) : (2 ^ m + window m V L) / 2 ^ shift = V / 2 ^ (f + 1) := by
  have hpow : 2 ^ L = 2 ^ (L - m) * 2 ^ m := by
    rw [← pow_add, Nat.sub_add_cancel hm]
  rw [window_add hV hL, hpow, Nat.mul_div_mul_right _ _ (Nat.two_pow_pos m), Nat.div_div_eq_div_mul,
    ← pow_add]
  congr 2
  omega

theorem div_lt_of_log2 (hL : L = log2 V) {k l : Nat} (h : L < k + l) : V / 2 ^ k < 2 ^ l := by
  have hlt : V < 2 ^ (L + 1) := hL ▸ lt_log2_self
  refine Nat.div_lt_of_lt_mul (hlt.trans_le ?_)
  rw [← pow_add]
  exact Nat.pow_le_pow_right (by decide) h

/-- The number in units of `2 ^ c`: its integral part and whether a fraction was lost. -/
def Scaled (V : Nat) (hasRemainder : Bool) (c : Int) (x : ℚ) : Prop :=
  ∃ δ : ℚ, 0 ≤ δ ∧ δ < 1 ∧ x = (V + δ) * 2 ^ c ∧ (hasRemainder = true ↔ δ ≠ 0)

variable {hasRemainder : Bool} {c e : Int} {x : ℚ}

theorem Scaled.lt_zpow (hx : Scaled V hasRemainder c x) (hL : L = log2 V)
    (he : e = FP.exponentBias + c + L) : x < 2 ^ (e + 1 - FP.exponentBias) := by
  obtain ⟨δ, -, hδ, rfl, -⟩ := hx
  have hlt : V + 1 ≤ 2 ^ (L + 1) := hL ▸ lt_log2_self
  have hlt' : (V : ℚ) + δ < 2 ^ (L + 1) := by
    have h : (V : ℚ) + 1 ≤ 2 ^ (L + 1) := by exact_mod_cast hlt
    linarith
  have hexp : e + 1 - FP.exponentBias = (L + 1 : ℕ) + c := by
    omega
  rw [hexp, zpow_add₀ (by norm_num)]
  exact mul_lt_mul_of_pos_right hlt' (zpow_pos (by norm_num) c)

theorem Scaled.nearest_zero (hx : Scaled V hasRemainder c x) (hL : L = log2 V)
    (he : e = FP.exponentBias + c + L) (hsm : (FP.numMantissaBits : Int) < -e) :
    Library.NearestEven FP.magnitude FP.infinity x 0 := by
  have hlt : x < 2 ^ (e + 1 - FP.exponentBias) := hx.lt_zpow hL he
  obtain ⟨δ, hδ, -, rfl, -⟩ := hx
  refine FP.nearest_zero (by positivity) (hlt.trans_le ?_)
  exact zpow_le_zpow_right₀ (by norm_num) (by omega)

theorem Scaled.nearest_of_bits (hx : Scaled V hasRemainder c x) (hFP : FP.Supported)
    (he : e = FP.exponentBias + c + L) {E shift f : Nat} (hE : e + shift = E + 1)
    (hf : L + shift = f + 1 + FP.numMantissaBits)
    (hQ : V / 2 ^ (f + 1) < 2 ^ (FP.numMantissaBits + 1))
    (hnor : E = 0 ∨ 2 ^ FP.numMantissaBits ≤ V / 2 ^ (f + 1)) {roundUp : Bool}
    (hrou : roundUp = true ↔ V.testBit f = true ∧
      (V % 2 ^ f ≠ 0 ∨ hasRemainder = true ∨ V.testBit (f + 1) = true)) :
    Library.NearestEven FP.magnitude FP.infinity x
      (min (E * 2 ^ FP.numMantissaBits + V / 2 ^ (f + 1) + roundUp.toNat) FP.infinity) := by
  obtain ⟨δ, hδ, hδ', rfl, hrem⟩ := hx
  have hhi : FP.magnitude (E * 2 ^ FP.numMantissaBits + V / 2 ^ (f + 1) + 1) =
      (V / 2 ^ (f + 1) + 1 : ℕ) * FP.ulp E :=
    FP.magnitude_eq hQ (hnor.imp_right fun h => h.trans (le_succ _))
  refine Library.NearestEven.of_guard_sticky FP.magnitude_strictMono (FP.ulp_pos E)
    (FP.magnitude_eq hQ.le hnor) (by rw [hhi]; push_cast; rfl) ?_ hδ hδ' ?_ ?_
  · have hexp : c + (f + 1 : ℕ) = (E : Int) + 1 - FP.exponentBias - FP.numMantissaBits := by
      omega
    rw [FloatProperties.ulp, ← hexp, zpow_add₀ (by norm_num), zpow_natCast, mul_assoc]
  · have heven : Even (E * 2 ^ FP.numMantissaBits) :=
      ((even_two.pow_of_ne_zero hFP.mantissa_pos.ne')).mul_left E
    rw [even_add]
    exact ⟨fun h => h.1 heven, fun h => ⟨fun _ => h, fun _ => heven⟩⟩
  · have hodd : V.testBit (f + 1) = true ↔ ¬Even (V / 2 ^ (f + 1)) := by
      rw [testBit_eq_decide_div_mod_eq, decide_eq_true_iff, not_even_iff]
    rw [hrou, hrem, hodd]

theorem Scaled.nearest_exact (hx : Scaled V false c x) (hV : V ≠ 0) (hL : L = log2 V)
    (he : e = FP.exponentBias + c + L) (hfew : L ≤ FP.numMantissaBits) {E : Nat} (hE : e = E + 1) :
    Library.NearestEven FP.magnitude FP.infinity x
      (min (E * 2 ^ FP.numMantissaBits + (2 ^ FP.numMantissaBits + window FP.numMantissaBits V L))
        FP.infinity) := by
  obtain ⟨δ, -, -, rfl, hrem⟩ := hx
  have hδ : δ = 0 := by
    by_contra hne
    exact Bool.false_ne_true (hrem.2 hne)
  have hpow : 2 ^ FP.numMantissaBits = 2 ^ (FP.numMantissaBits - L) * 2 ^ L := by
    rw [← pow_add, Nat.sub_add_cancel hfew]
  have hwin : 2 ^ FP.numMantissaBits + window FP.numMantissaBits V L =
      V * 2 ^ (FP.numMantissaBits - L) := by
    rw [window_add hV hL, hpow, ← mul_assoc, Nat.mul_div_cancel _ (Nat.two_pow_pos L)]
  have hlt := window_lt FP.numMantissaBits V L
  refine Library.NearestEven.of_eq FP.magnitude_strictMono ?_
  rw [FP.magnitude_eq (by rw [pow_succ]; omega) (.inr (le_add_right _ _)), hwin, hδ,
    FloatProperties.ulp]
  have hexp : c = (FP.numMantissaBits - L : ℕ) +
      ((E : Int) + 1 - FP.exponentBias - FP.numMantissaBits) := by omega
  rw [hexp, zpow_add₀ (by norm_num), zpow_natCast]
  push_cast
  ring

/-- The parser rounds the long number to the nearest floating-point number. -/
theorem roundWords_correct (hFP : FP.Supported) (hx : Scaled V hasRemainder c x) (hV : V ≠ 0)
    (hVn : V < 2 ^ (wordBits * n)) (hL : L = log2 V) (he : e = FP.exponentBias + c + L)
    (hsm : -2 ^ 31 < e) (hlg : e < 2 ^ 31 - 1)
    (hbts : (hasRemainder = false ∧ 1 ≤ e) ∨ (FP.numMantissaBits < L ∧ L + 1 < wordBits * n))
    {binaryEx : Int} (hexponent : toSigned 32 (binaryEx + toSigned 32 L) = e)
    (sign : Nat) :
    ∃ b, roundWords FP sign (toWords n V) hasRemainder binaryEx = .ok (sign ||| b) ∧
      Library.NearestEven FP.magnitude FP.infinity x b := by
  have hLn : L < wordBits * n := by
    rw [hL]
    exact (log2_lt hV).2 hVn
  have hm := hFP.mantissa_lt
  rw [roundWords, findLastOneBit_toWords hVn, if_neg hV, ← hL, Option.getD_some]
  rw [extractMantissa_toWords hFP.integerBits (by omega) hLn, hexponent]
  simp only [bind, Except.bind]
  by_cases hsub : e ≤ 0
  · rw [if_pos hsub]
    obtain ⟨hLm, hLn'⟩ : FP.numMantissaBits < L ∧ L + 1 < wordBits * n := by
      rcases hbts with h | h
      · omega
      · exact h
    rw [toSigned_eq_self (by omega) (by omega)]
    by_cases htiny : -e > FP.numMantissaBits
    · rw [if_pos htiny]
      exact ⟨0, by rw [or_zero], hx.nearest_zero hL he (by omega)⟩
    · rw [if_neg htiny]
      obtain ⟨shift, hsh⟩ : ∃ shift : Nat, 1 - e = shift := ⟨(1 - e).toNat, by omega⟩
      have hun : toUnsigned 32 (1 - e) = shift := by
        rw [toUnsigned]
        omega
      rw [hun]
      obtain ⟨roundUp, hneed, hrou⟩ := needRoundUp_toWords (V := V)
        (show FP.numMantissaBits + 1 - shift ≤ L by omega)
        (show L + 1 - (FP.numMantissaBits + 1 - shift) < wordBits * n by omega) hasRemainder
      obtain ⟨f, hf⟩ : ∃ f, f = L - (FP.numMantissaBits + 1 - shift) := ⟨_, rfl⟩
      rw [← hf] at hrou
      have hman : (window FP.numMantissaBits V L ||| 2 ^ FP.numMantissaBits) >>> shift =
          V / 2 ^ (f + 1) := by
        have hor := two_pow_add_eq_or_of_lt (window_lt FP.numMantissaBits V L) 1
        rw [mul_one] at hor
        rw [Nat.or_comm, ← hor, shiftRight_eq_div_pow,
          window_add_shift hV hL hLm.le (show L + shift = f + 1 + FP.numMantissaBits by omega)]
      have hQ : V / 2 ^ (f + 1) < 2 ^ FP.numMantissaBits := div_lt_of_log2 hL (by omega)
      refine ⟨_, ?_, hx.nearest_of_bits hFP he (E := 0) (show e + shift = (0 : Nat) + 1 by omega)
        (show L + shift = f + 1 + FP.numMantissaBits by omega)
        (hQ.trans (Nat.pow_lt_pow_right (by decide) (by omega))) (.inl rfl) hrou⟩
      rw [hneed, hman]
      rw [← composeFloat_eq hFP sign (by decide) hQ roundUp]
      rfl
  · rw [if_neg hsub]
    obtain ⟨E, hE⟩ : ∃ E : Nat, e = E + 1 := ⟨(e - 1).toNat, by omega⟩
    have hcom : ∀ roundUp, composeFloat FP sign (window FP.numMantissaBits V L) e roundUp =
        sign ||| min (E * 2 ^ FP.numMantissaBits +
          (2 ^ FP.numMantissaBits + window FP.numMantissaBits V L) + roundUp.toNat) FP.infinity := by
      intro roundUp
      have h := composeFloat_eq hFP sign (show E + 1 < 2 ^ 31 - 1 by omega)
        (window_lt FP.numMantissaBits V L) roundUp
      rw [succ_mul, add_assoc (E * _)] at h
      rw [hE]
      exact h
    by_cases hfew : L ≤ FP.numMantissaBits
    · obtain rfl : hasRemainder = false := by
        rcases hbts with h | h
        · exact h.1
        · omega
      rw [needRoundUp_of_lt _ (by omega)]
      exact ⟨_, congrArg _ (hcom false), hx.nearest_exact hV hL he hfew hE⟩
    · obtain ⟨roundUp, hneed, hrou⟩ := needRoundUp_toWords (V := V)
        (show FP.numMantissaBits + 1 ≤ L by omega)
        (show L + 1 - (FP.numMantissaBits + 1) < wordBits * n by omega) hasRemainder
      obtain ⟨f, hf⟩ : ∃ f, f = L - (FP.numMantissaBits + 1) := ⟨_, rfl⟩
      rw [← hf] at hrou
      have hman : 2 ^ FP.numMantissaBits + window FP.numMantissaBits V L = V / 2 ^ (f + 1) := by
        have h := window_add_shift hV hL (show FP.numMantissaBits ≤ L by omega)
          (show L + 0 = f + 1 + FP.numMantissaBits by omega)
        rwa [Nat.pow_zero, Nat.div_one] at h
      rw [hneed]
      refine ⟨_, congrArg _ (hcom roundUp), ?_⟩
      rw [hman]
      refine hx.nearest_of_bits hFP he (show e + (0 : Nat) = E + 1 by omega)
        (show L + 0 = f + 1 + FP.numMantissaBits by omega) (div_lt_of_log2 hL (by omega))
        (.inr ?_) hrou
      rw [← hman]
      exact le_add_right _ _

end

end USprache.Ustlib.FloatParsing
