import Mathlib.Tactic.FieldSimp
import USprache.Ustlib.FloatRounding

/-!
# Conversion of digits

The number of words is estimated by fixed-point logarithms.  The estimate is large enough for
the digits and for the factors, and the bits that are left after the divisions are enough for
rounding.
-/

namespace USprache.Ustlib.FloatParsing

open Library Nat Int

variable {k : Nat}

/-- A power is bounded by a power of two, if its base is in 256-th parts of the exponent. -/
theorem pow_lt_two_pow {base : Nat} (h : base ^ 256 ≤ 2 ^ k) (n : Nat) :
    base ^ n < 2 ^ (n * k / 2 ^ 8 + 1) := by
  refine lt_of_pow_lt_pow_left₀ 256 (zero_le _) ?_
  calc (base ^ n) ^ 256 = (base ^ 256) ^ n := by rw [← pow_mul, ← pow_mul, mul_comm]
    _ ≤ (2 ^ k) ^ n := Nat.pow_le_pow_left h n
    _ = 2 ^ (n * k) := by rw [← pow_mul, mul_comm]
    _ < 2 ^ ((n * k / 2 ^ 8 + 1) * 256) := Nat.pow_lt_pow_right (by decide) (by omega)
    _ = (2 ^ (n * k / 2 ^ 8 + 1)) ^ 256 := by rw [← pow_mul]

variable {FP : FloatProperties} {size : SizeType}

theorem numWords_ge {totalBs : Nat} (h : totalBs + (wordBits - 1) < 2 ^ size.bits) :
    totalBs ≤ wordBits * ((totalBs + (wordBits - 1)) % 2 ^ size.bits / wordBits) := by
  rw [mod_eq_of_lt h]
  simp only [wordBits]
  omega

theorem two_pow_sizeBits (size : SizeType) : 2 ^ size.bits = 2 ^ 32 ∨ 2 ^ size.bits = 2 ^ 64 := by
  cases size with
  | bytes4 => exact .inl rfl
  | bytes8 => exact .inr rfl

variable {numDs : Nat}

theorem numTotalBits_of_nonneg (FP : FloatProperties) {ex : Nat}
    (hds : numDs * log10DivLog2Fixed8 < 2 ^ size.bits) (hexponent : ex ≤ 311) :
    numTotalBits FP size numDs ex =
        numDs * log10DivLog2Fixed8 / 2 ^ 8 + 1 + (ex * log5DivLog2Fixed8 / 2 ^ 8 + 1) ∧
      numTotalBits FP size numDs ex + (wordBits - 1) < 2 ^ size.bits := by
  have hsz := two_pow_sizeBits size
  have hun : toUnsigned size.bits (ex : Int) = ex := by
    cases size <;> simp only [toUnsigned, SizeType.bits] <;> omega
  have hexponent' : ex * log5DivLog2Fixed8 < 2 ^ size.bits := by
    rw [log5DivLog2Fixed8]
    omega
  have heq : numTotalBits FP size numDs ex =
      numDs * log10DivLog2Fixed8 / 2 ^ 8 + 1 + (ex * log5DivLog2Fixed8 / 2 ^ 8 + 1) := by
    rw [numTotalBits, if_pos (natCast_nonneg ex), hun, mod_eq_of_lt hds,
      mod_eq_of_lt hexponent', mod_eq_of_lt]
    omega
  refine ⟨heq, ?_⟩
  rw [wordBits]
  omega

theorem numTotalBits_of_neg (hFP : FP.Supported)
    (hds : numDs * log10DivLog2Fixed8 < 2 ^ size.bits) (hk : 0 < k) :
    numTotalBits FP size numDs (-k) =
        numDs * log10DivLog2Fixed8 / 2 ^ 8 + 1 + numLeftBitShifts FP (-k) ∧
      numTotalBits FP size numDs (-k) + (wordBits - 1) < 2 ^ size.bits := by
  have hsz := two_pow_sizeBits size
  have hm := hFP.mantissa_le
  have hneg : ¬(-(k : Int) ≥ 0) := by omega
  have hshi : numLeftBitShifts FP (-k) < 2 ^ 24 + 56 := by
    rw [numLeftBitShifts, if_neg hneg]
    omega
  have heq : numTotalBits FP size numDs (-k) =
      numDs * log10DivLog2Fixed8 / 2 ^ 8 + 1 + numLeftBitShifts FP (-k) := by
    rw [numTotalBits, if_neg hneg, mod_eq_of_lt hds, mod_eq_of_lt]
    omega
  refine ⟨heq, ?_⟩
  rw [wordBits]
  omega

variable {V : Nat} {hasRemainder : Bool} {c e : Int} {x : ℚ} {L : Nat}

theorem Scaled.zpow_le (hx : Scaled V hasRemainder c x) (hV : V ≠ 0) (hL : L = log2 V)
    (he : e = FP.exponentBias + c + L) : (2 : ℚ) ^ (e - FP.exponentBias) ≤ x := by
  obtain ⟨δ, hδ, -, rfl, -⟩ := hx
  have hle : 2 ^ L ≤ V := hL ▸ log2_self_le hV
  have hle' : (2 : ℚ) ^ L ≤ V + δ := by
    have h : (2 : ℚ) ^ L ≤ V := by exact_mod_cast hle
    linarith
  have hexp : e - FP.exponentBias = (L : Int) + c := by omega
  rw [hexp, zpow_add₀ (by norm_num)]
  exact mul_le_mul_of_nonneg_right hle' (zpow_nonneg (by norm_num) c)

theorem ten_pow_le (n : Nat) : (10 : ℚ) ^ n ≤ 2 ^ (4 * n) := by
  rw [pow_mul]
  exact pow_le_pow_left₀ (by norm_num) (by norm_num) n

theorem Scaled.exponent_bounds (hx : Scaled V hasRemainder c x) (hV : V ≠ 0) (hL : L = log2 V)
    (he : e = FP.exponentBias + c + L) {lower upper : Nat} (hlo : ((10 : ℚ) ^ lower)⁻¹ ≤ x)
    (hup : x < 10 ^ upper) :
    -(4 * lower : Int) < e + 1 - FP.exponentBias ∧ e - FP.exponentBias < 4 * upper := by
  have hb : (1 : ℚ) < 2 := by norm_num
  constructor
  · refine (zpow_lt_zpow_iff_right₀ hb).1 (lt_of_le_of_lt (le_trans ?_ hlo) (hx.lt_zpow hL he))
    have hpow : (2 : ℚ) ^ (-(4 * lower : Int)) = (2 ^ (4 * lower))⁻¹ := by
      rw [zpow_neg]
      norm_cast
    rw [hpow]
    exact inv_anti₀ (by positivity) (ten_pow_le lower)
  · refine (zpow_lt_zpow_iff_right₀ hb).1 (lt_of_le_of_lt (hx.zpow_le hV hL he) ?_)
    exact hup.trans_le (ten_pow_le upper)

/-- The operations with the exponent may overflow, but their result does not. -/
theorem toSigned_exponent {bias : Nat} {r : Int} {shs : Nat} (hc : c = r - shs)
    (he : e = bias + c + L) (hlo : -2 ^ 31 ≤ e) (hup : e < 2 ^ 31) :
    toSigned 32 (toSigned 32 (toSigned 32 (bias + r) - toSigned 32 shs) + toSigned 32 L) = e := by
  have hsum : (bias : Int) + r - shs + L = e := by omega
  have hsf : toSigned 32 e = e := toSigned_eq_self hlo hup
  rw [toSigned] at hsf
  simp only [toSigned, bmod_sub_bmod, sub_bmod_bmod, bmod_add_bmod, add_bmod_bmod,
    hsum, hsf]

section

variable {digits : List Nat}

theorem value_bounds (hds : ∀ d ∈ digits, d < 10) (hlen : 0 < digits.length)
    (hpos : 10 ^ (digits.length - 1) ≤ Decimal.valueFrom 0 digits) (r : Int) :
    (10 : ℚ) ^ (r + digits.length - 1) ≤ Decimal.valueFrom 0 digits * 10 ^ r ∧
      (Decimal.valueFrom 0 digits : ℚ) * 10 ^ r < 10 ^ (r + digits.length) := by
  have hten : (0 : ℚ) < 10 ^ r := zpow_pos (by norm_num) r
  have hlt := valueFrom_lt hds 0
  rw [Nat.one_mul] at hlt
  constructor
  · have hexp : r + digits.length - 1 = (digits.length - 1 : ℕ) + r := by omega
    rw [hexp, zpow_add₀ (by norm_num)]
    exact mul_le_mul_of_nonneg_right (by exact_mod_cast hpos) hten.le
  · rw [add_comm r, zpow_add₀ (by norm_num)]
    exact mul_lt_mul_of_pos_right (by exact_mod_cast hlt) hten

theorem scaled_quotient {S shs : Nat} :
    Scaled (S * 2 ^ shs / 5 ^ k) (decide (S * 2 ^ shs % 5 ^ k ≠ 0)) (-k - shs)
      (S * 10 ^ (-k : Int)) := by
  have hfive : (0 : ℚ) < 5 ^ k := by positivity
  refine ⟨(S * 2 ^ shs % 5 ^ k : ℕ) / 5 ^ k, by positivity, ?_, ?_, ?_⟩
  · rw [div_lt_one hfive]
    exact_mod_cast mod_lt _ (Nat.pow_pos (by decide))
  · have hsp := div_add_mod (S * 2 ^ shs) (5 ^ k)
    have hsp' : (5 : ℚ) ^ k * (S * 2 ^ shs / 5 ^ k : ℕ) + (S * 2 ^ shs % 5 ^ k : ℕ) =
        S * 2 ^ shs := by exact_mod_cast hsp
    have hquo : ((S * 2 ^ shs / 5 ^ k : ℕ) : ℚ) + (S * 2 ^ shs % 5 ^ k : ℕ) / 5 ^ k =
        S * 2 ^ shs / 5 ^ k := by
      rw [eq_div_iff hfive.ne', ← hsp', add_mul, div_mul_cancel₀ _ hfive.ne', mul_comm]
    have hten : (10 : ℚ) ^ (-k : Int) = (2 ^ k)⁻¹ * (5 ^ k)⁻¹ := by
      rw [← mul_inv, ← mul_pow]
      norm_num
    have htwo : (2 : ℚ) ^ (-k - shs : Int) = (2 ^ k)⁻¹ * (2 ^ shs)⁻¹ := by
      rw [sub_eq_add_neg, zpow_add₀ (by norm_num), zpow_neg, zpow_neg, zpow_natCast, zpow_natCast]
    rw [hquo, hten, htwo]
    field_simp
  · simp

theorem scaled_product (S ex : Nat) : Scaled (S * 5 ^ ex) false ex (S * 10 ^ (ex : Int)) := by
  refine ⟨0, le_refl 0, one_pos, ?_, by simp⟩
  have hten : (10 : ℚ) ^ ex = 5 ^ ex * 2 ^ ex := by
    rw [← mul_pow]
    norm_num
  rw [zpow_natCast, zpow_natCast, hten]
  push_cast
  ring

theorem two_pow_mul_five_pow_le {j m : Nat} (h : m + 4 * j ≤ k) :
    2 ^ m * 5 ^ k ≤ 10 ^ (k - j) := by
  refine Nat.le_of_mul_le_mul_right (c := 2 ^ (4 * j)) ?_ (Nat.two_pow_pos _)
  calc 2 ^ m * 5 ^ k * 2 ^ (4 * j) = 5 ^ k * 2 ^ (m + 4 * j) := by
        ring
    _ ≤ 5 ^ k * 2 ^ k := mul_le_mul_left _ (Nat.pow_le_pow_right (by decide) h)
    _ = 10 ^ (k - j) * 10 ^ j := by
        rw [← Nat.mul_pow, ← pow_add, Nat.sub_add_cancel (by omega)]
    _ ≤ 10 ^ (k - j) * 2 ^ (4 * j) := by
        rw [pow_mul]
        exact mul_le_mul_left _ (Nat.pow_le_pow_left (by decide) j)

/-- The quotient has enough bits: either the number was shifted far enough, or it has very many
digits. -/
theorem quotient_ge (hFP : FP.Supported) {S : Nat} (hk : 0 < k)
    (hS : 10 ^ (numDs - 1) ≤ S) (hord : k ≤ numDs + 341) :
    2 ^ (FP.numMantissaBits + 1) ≤ S * 2 ^ numLeftBitShifts FP (-k) / 5 ^ k := by
  have hm := hFP.mantissa_le
  have hpos : 0 < S := lt_of_lt_of_le (Nat.pow_pos (by decide)) hS
  rw [le_div_iff_mul_le (Nat.pow_pos (by decide))]
  by_cases hwrap : k * log5DivLog2Fixed8 < 2 ^ 32
  · have hun : toUnsigned 32 (- -(k : Int)) = k := by
      rw [log5DivLog2Fixed8] at hwrap
      rw [toUnsigned]
      omega
    have hshi : numLeftBitShifts FP (-k) =
        FP.numMantissaBits + 1 + (k * log5DivLog2Fixed8 / 2 ^ 8 + 1) + 1 := by
      rw [numLeftBitShifts, if_neg (by omega), hun, mod_eq_of_lt]
      · omega
      · omega
    calc 2 ^ (FP.numMantissaBits + 1) * 5 ^ k
        ≤ 2 ^ (FP.numMantissaBits + 1) * 2 ^ (k * log5DivLog2Fixed8 / 2 ^ 8 + 1) :=
          mul_le_mul_left _ (pow_lt_two_pow (by decide +kernel) k).le
      _ ≤ 2 ^ numLeftBitShifts FP (-k) := by
          rw [← pow_add, hshi]
          exact Nat.pow_le_pow_right (by decide) (le_succ _)
      _ ≤ S * 2 ^ numLeftBitShifts FP (-k) := Nat.le_mul_of_pos_left _ hpos
  · rw [log5DivLog2Fixed8] at hwrap
    -- The overflow of the number of shifts does not matter for so many digits.
    calc 2 ^ (FP.numMantissaBits + 1) * 5 ^ k ≤ 10 ^ (k - 342) := two_pow_mul_five_pow_le (by omega)
      _ ≤ 10 ^ (numDs - 1) := Nat.pow_le_pow_right (by decide) (by omega)
      _ ≤ S := hS
      _ ≤ S * 2 ^ numLeftBitShifts FP (-k) := Nat.le_mul_of_pos_right _ (Nat.two_pow_pos _)

theorem roundWords_of_scaled (hFP : FP.Supported) {n shs : Nat} {r : Int}
    (hx : Scaled V hasRemainder (r - shs) x) (hV : V ≠ 0) (hVn : V < 2 ^ (wordBits * n))
    (hlo : ((10 : ℚ) ^ 342)⁻¹ ≤ x) (hup : x < 10 ^ 311)
    (hbts : (hasRemainder = false ∧ 0 ≤ r - shs) ∨
      (2 ^ (FP.numMantissaBits + 1) ≤ V ∧ V * 4 < 2 ^ (wordBits * n))) (sign : Nat) :
    ∃ b, roundWords FP sign (toWords n V) hasRemainder
        (toSigned 32 (toSigned 32 (FP.exponentBias + r) - toSigned 32 shs)) = .ok (sign ||| b) ∧
      NearestEven FP.magnitude FP.infinity x b := by
  obtain ⟨L, hL⟩ : ∃ L, L = log2 V := ⟨_, rfl⟩
  obtain ⟨e, he⟩ : ∃ e, e = FP.exponentBias + (r - shs) + L := ⟨_, rfl⟩
  obtain ⟨hlg, hsm⟩ := hx.exponent_bounds hV hL he hlo hup
  have hbias := hFP.bias_le
  have hbias' := hFP.bias_pos
  refine roundWords_correct hFP hx hV hVn hL he (by omega) (by omega) ?_
    (toSigned_exponent rfl he (by omega) (by omega)) sign
  rcases hbts with ⟨hrem, hsca⟩ | ⟨hmany, hrm⟩
  · exact .inl ⟨hrem, by omega⟩
  · refine .inr ⟨?_, ?_⟩
    · rw [hL]
      exact (le_log2 hV).2 hmany
    · have hle : 2 ^ L * 2 ^ 2 < 2 ^ (wordBits * n) :=
        lt_of_le_of_lt (mul_le_mul_right _ (hL ▸ log2_self_le hV)) hrm
      rw [← pow_add] at hle
      have hlt := (Nat.pow_lt_pow_iff_right (by decide)).1 hle
      omega

theorem Supported.decimalOrders (hFP : FP.Supported) :
    -341 ≤ FP.minDecimalOrder ∧ FP.maxDecimalOrder ≤ 311 := by
  rcases hFP with rfl | rfl <;> decide

/-- The digits with a decimal exponent that is not too large and not too small are converted to
the nearest number. -/
theorem convert_correct (hFP : FP.Supported) (hds : ∀ d ∈ digits, d < 10) (hlen : 0 < digits.length)
    (hpos : 10 ^ (digits.length - 1) ≤ Decimal.valueFrom 0 digits)
    (hsz : digits.length * log10DivLog2Fixed8 < 2 ^ size.bits) {r : Int} (hr : -2 ^ 31 ≤ r)
    (hmin : FP.minDecimalOrder ≤ r + digits.length) (hmax : r + digits.length ≤ FP.maxDecimalOrder)
    (sign : Nat) :
    ∃ b, convert FP size sign digits r = .ok (sign ||| b) ∧
      NearestEven FP.magnitude FP.infinity (Decimal.valueFrom 0 digits * 10 ^ r) b := by
  obtain ⟨hmin', hmax'⟩ := Supported.decimalOrders hFP
  obtain ⟨S, hS⟩ : ∃ S, S = Decimal.valueFrom 0 digits := ⟨_, rfl⟩
  obtain ⟨hlo, hup⟩ := value_bounds hds hlen hpos r
  have hlt := valueFrom_lt hds 0
  rw [Nat.one_mul, ← hS] at hlt
  have hS_pos : 0 < S := hS ▸ (Nat.pow_pos (by decide)).trans_le hpos
  have hS_lt : S < 2 ^ (digits.length * log10DivLog2Fixed8 / 2 ^ 8 + 1) :=
    hlt.trans (pow_lt_two_pow (by decide +kernel) _)
  rw [← hS] at hlo hup hpos ⊢
  have hlo' : ((10 : ℚ) ^ 342)⁻¹ ≤ S * 10 ^ r := by
    refine le_trans ?_ hlo
    rw [← zpow_natCast, ← zpow_neg]
    exact zpow_le_zpow_right₀ (by norm_num) (by push_cast; omega)
  have hup' : (S : ℚ) * 10 ^ r < 10 ^ 311 := by
    refine hup.trans_le ?_
    rw [← zpow_natCast]
    exact zpow_le_zpow_right₀ (by norm_num) (by push_cast; omega)
  rw [convert]
  by_cases hsign : 0 ≤ r
  · obtain ⟨ex, rfl⟩ := eq_ofNat_of_zero_le hsign
    obtain ⟨htot, hsm⟩ := numTotalBits_of_nonneg FP hsz (show ex ≤ 311 by omega)
    have hws := numWords_ge hsm
    obtain ⟨n, hn⟩ : ∃ n, n = (numTotalBits FP size digits.length ex + (wordBits - 1)) %
      2 ^ size.bits / wordBits := ⟨_, rfl⟩
    rw [← hn, htot] at hws
    have hV : S * 5 ^ ex < 2 ^ (wordBits * n) := by
      calc S * 5 ^ ex < 2 ^ (digits.length * log10DivLog2Fixed8 / 2 ^ 8 + 1) *
              2 ^ (ex * log5DivLog2Fixed8 / 2 ^ 8 + 1) :=
            mul_lt_mul'' hS_lt (pow_lt_two_pow (by decide +kernel) ex)
        _ ≤ 2 ^ (wordBits * n) := by
            rw [← pow_add]
            exact Nat.pow_le_pow_right (by decide) hws
    have hSn : S < 2 ^ (wordBits * n) :=
      lt_of_le_of_lt (Nat.le_mul_of_pos_right S (Nat.pow_pos (by decide))) hV
    have hn_pos : 0 < n := pos_of_ne_zero (by rintro rfl; omega)
    have hshi : numLeftBitShifts FP (ex : Int) = 0 := if_pos (natCast_nonneg ex)
    rw [← hn, hshi, convertSignificand_toWords hds hn_pos (hS ▸ hSn), ← hS]
    simp only [bind, Except.bind]
    rw [scaleWords_of_nonneg ex (by omega) hV]
    refine roundWords_of_scaled hFP ?_ (mul_pos hS_pos (Nat.pow_pos (by decide))).ne' hV hlo'
      hup' (.inl ⟨rfl, by simp⟩) sign
    simpa using scaled_product S ex
  · obtain ⟨k, hk⟩ : ∃ k : Nat, r = -k := ⟨(-r).toNat, by omega⟩
    subst hk
    obtain ⟨htot, hsm⟩ := numTotalBits_of_neg hFP hsz (show 0 < k by omega)
    have hws := numWords_ge hsm
    obtain ⟨n, hn⟩ : ∃ n, n = (numTotalBits FP size digits.length (-k) + (wordBits - 1)) %
      2 ^ size.bits / wordBits := ⟨_, rfl⟩
    obtain ⟨shs, hshi⟩ : ∃ shs, shs = numLeftBitShifts FP (-k) := ⟨_, rfl⟩
    rw [← hn, htot, ← hshi] at hws
    have hV : S * 2 ^ shs < 2 ^ (wordBits * n) := by
      calc S * 2 ^ shs < 2 ^ (digits.length * log10DivLog2Fixed8 / 2 ^ 8 + 1) * 2 ^ shs :=
            mul_lt_mul_of_pos_right hS_lt (Nat.two_pow_pos shs)
        _ ≤ 2 ^ (wordBits * n) := by
            rw [← pow_add]
            exact Nat.pow_le_pow_right (by decide) hws
    have hSn : S < 2 ^ (wordBits * n) :=
      lt_of_le_of_lt (Nat.le_mul_of_pos_right S (Nat.two_pow_pos shs)) hV
    have hn_pos : 0 < n := pos_of_ne_zero (by rintro rfl; omega)
    have hmany := quotient_ge hFP (show 0 < k by omega) hpos (by omega)
    rw [← hshi] at hmany
    have hrm : S * 2 ^ shs / 5 ^ k * 4 < 2 ^ (wordBits * n) := by
      have hfive : 4 ≤ 5 ^ k := by
        calc 4 ≤ 5 ^ 1 := by decide
          _ ≤ 5 ^ k := Nat.pow_le_pow_right (by decide) (by omega)
      calc S * 2 ^ shs / 5 ^ k * 4 ≤ S * 2 ^ shs / 5 ^ k * 5 ^ k := mul_le_mul_left _ hfive
        _ ≤ S * 2 ^ shs := div_mul_le_self _ _
        _ < 2 ^ (wordBits * n) := hV
    rw [← hn, ← hshi, convertSignificand_toWords hds hn_pos (hS ▸ hSn), ← hS]
    simp only [bind, Except.bind]
    rw [scaleWords_of_neg k (by omega) (by omega) shs hV hS_pos]
    exact roundWords_of_scaled hFP scaled_quotient
      (lt_of_lt_of_le (Nat.two_pow_pos _) hmany).ne' (by omega) hlo' hup'
      (.inr ⟨hmany, hrm⟩) sign

end

end USprache.Ustlib.FloatParsing
