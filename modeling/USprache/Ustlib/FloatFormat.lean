import Mathlib.Algebra.Order.Field.Power
import USprache.Library.NearestEven
import USprache.Ustlib.FloatParsing

/-!
# Floating-point numbers

The number that a bit pattern without a sign stands for.  Bit patterns in increasing order
stand for increasing numbers.  The bit pattern of infinity counts as the power of two that
would follow the largest finite number, so that a number is rounded to infinity if it would be
rounded to that power of two.
-/

namespace USprache.Ustlib

open Nat

inductive FloatType where
  | f32 | f64
deriving DecidableEq

def FloatType.properties : FloatType → FloatProperties
  | f32 => floatPropertiesF32
  | f64 => floatPropertiesF64

namespace FloatProperties

variable (FP : FloatProperties)

def Supported : Prop := FP = floatPropertiesF32 ∨ FP = floatPropertiesF64

theorem supported_properties (T : FloatType) : T.properties.Supported := by
  cases T with
  | f32 => exact .inl rfl
  | f64 => exact .inr rfl

variable {FP}

namespace Supported

variable (h : FP.Supported)

include h

theorem integerBits : FP.integerBits = 32 ∨ FP.integerBits = 64 := by
  rcases h with rfl | rfl
  · exact .inl rfl
  · exact .inr rfl

theorem mantissa_pos : 0 < FP.numMantissaBits := by
  rcases h with rfl | rfl <;> decide

theorem mantissa_le : FP.numMantissaBits ≤ 52 := by
  rcases h with rfl | rfl <;> decide

theorem mantissa_lt : FP.numMantissaBits + 1 < FP.integerBits := by
  rcases h with rfl | rfl <;> decide

theorem bias_pos : 0 < FP.exponentBias := by
  rcases h with rfl | rfl <;> decide

theorem bias_le : FP.exponentBias ≤ 1023 := by
  rcases h with rfl | rfl <;> decide

end Supported

def magnitude (bits : ℕ) : ℚ :=
  let exponent := bits / 2 ^ FP.numMantissaBits
  let mantissa := bits % 2 ^ FP.numMantissaBits
  if exponent = 0 then mantissa * 2 ^ (1 - FP.exponentBias - FP.numMantissaBits : ℤ)
  else (2 ^ FP.numMantissaBits + mantissa) * 2 ^ (exponent - FP.exponentBias - FP.numMantissaBits : ℤ)

def ulp (E : ℕ) : ℚ := 2 ^ ((E : ℤ) + 1 - FP.exponentBias - FP.numMantissaBits)

theorem ulp_pos (E : ℕ) : 0 < FP.ulp E := zpow_pos (by norm_num) _

theorem magnitude_eq {E Q : ℕ} (hQ : Q ≤ 2 ^ (FP.numMantissaBits + 1))
    (h : E = 0 ∨ 2 ^ FP.numMantissaBits ≤ Q) :
    FP.magnitude (E * 2 ^ FP.numMantissaBits + Q) = Q * FP.ulp E := by
  have hpow : 0 < 2 ^ FP.numMantissaBits := Nat.two_pow_pos _
  rw [magnitude, ulp]
  by_cases hlow : Q < 2 ^ FP.numMantissaBits
  · obtain rfl : E = 0 := by omega
    rw [zero_mul, zero_add, div_eq_of_lt hlow, mod_eq_of_lt hlow]
    simp
  · obtain ⟨f, rfl⟩ := Nat.exists_eq_add_of_le (Nat.le_of_not_lt hlow)
    have hsum : E * 2 ^ FP.numMantissaBits + (2 ^ FP.numMantissaBits + f) =
        f + 2 ^ FP.numMantissaBits * (E + 1) := by ring
    have hne : f / 2 ^ FP.numMantissaBits + (E + 1) ≠ 0 := succ_ne_zero _
    rw [hsum, add_mul_div_left _ _ hpow, add_mul_mod_self_left]
    by_cases hf : f < 2 ^ FP.numMantissaBits
    · rw [div_eq_of_lt hf, mod_eq_of_lt hf]
      push_cast
      ring_nf
    · obtain rfl : f = 2 ^ FP.numMantissaBits := by omega
      rw [Nat.div_self hpow, mod_self]
      push_cast
      rw [show (1 + ((E : ℤ) + 1) - FP.exponentBias - FP.numMantissaBits) =
        1 + ((E : ℤ) + 1 - FP.exponentBias - FP.numMantissaBits) by ring,
        zpow_add₀ (by norm_num : (2 : ℚ) ≠ 0)]
      ring

theorem exists_eq_multiple (bs : ℕ) :
    ∃ E Q, bs = E * 2 ^ FP.numMantissaBits + Q ∧ Q < 2 ^ (FP.numMantissaBits + 1) ∧
      (E = 0 ∨ 2 ^ FP.numMantissaBits ≤ Q) := by
  have hsp := div_add_mod' bs (2 ^ FP.numMantissaBits)
  by_cases hz : bs / 2 ^ FP.numMantissaBits = 0
  · refine ⟨0, bs % 2 ^ FP.numMantissaBits, ?_, by omega, .inl rfl⟩
    rw [hz] at hsp
    exact hsp.symm
  · obtain ⟨E, hE⟩ := exists_eq_succ_of_ne_zero hz
    refine ⟨E, 2 ^ FP.numMantissaBits + bs % 2 ^ FP.numMantissaBits, ?_, by omega,
      .inr (le_add_right _ _)⟩
    rw [hE, succ_mul] at hsp
    omega

theorem magnitude_strictMono : StrictMono FP.magnitude := by
  refine strictMono_nat_of_lt_succ fun bs => ?_
  obtain ⟨E, Q, rfl, hQ, h⟩ := FP.exists_eq_multiple bs
  have hsucc : FP.magnitude (E * 2 ^ FP.numMantissaBits + Q + 1) = (Q + 1 : ℕ) * FP.ulp E :=
    magnitude_eq hQ (h.imp_right fun h => h.trans (le_succ Q))
  rw [hsucc, magnitude_eq hQ.le h]
  exact mul_lt_mul_of_pos_right (by exact_mod_cast lt_succ_self Q) (ulp_pos E)

theorem magnitude_zero : FP.magnitude 0 = 0 := by
  simpa using magnitude_eq (E := 0) (Q := 0) (zero_le _) (.inl rfl)

theorem nearest_zero {x : ℚ} (hnon : 0 ≤ x)
    (hlt : x < 2 ^ (-FP.exponentBias - FP.numMantissaBits : ℤ)) :
    Library.NearestEven FP.magnitude FP.infinity x 0 := by
  have hone : FP.magnitude (0 + 1) = 2 * 2 ^ (-FP.exponentBias - FP.numMantissaBits : ℤ) := by
    have h : FP.magnitude (0 + 1) = FP.ulp 0 := by
      simpa using magnitude_eq (E := 0) (Q := 1) Nat.one_le_two_pow (.inl rfl)
    rw [h, ulp, mul_comm, ← zpow_add_one₀ (by norm_num)]
    ring_nf
  have hlo : FP.magnitude 0 ≤ x := by
    rw [magnitude_zero]
    exact hnon
  refine Library.NearestEven.of_lower magnitude_strictMono hlo (.inl ?_)
  rw [magnitude_zero]
  linarith

theorem magnitude_infinity {FP : FloatProperties} (hFP : FP.Supported) :
    FP.magnitude FP.infinity = 2 ^ (FP.maxExponentValue - FP.exponentBias : ℤ) := by
  have hmax : 0 < FP.maxExponentValue := by
    rcases hFP with rfl | rfl <;> decide
  have hsp : FP.infinity = (FP.maxExponentValue - 1) * 2 ^ FP.numMantissaBits +
      2 ^ FP.numMantissaBits := by
    rw [infinity, ← succ_mul, succ_eq_add_one, Nat.sub_add_cancel hmax]
  rw [hsp, magnitude_eq (Nat.pow_le_pow_right (by decide) (le_succ _)) (.inr le_rfl), ulp]
  push_cast [hmax]
  rw [← zpow_natCast, ← zpow_add₀ (by norm_num)]
  ring_nf

end FloatProperties

/-- The bit pattern of the floating-point number nearest to the number with the magnitude. -/
def RoundsTo (FP : FloatProperties) (negative : Bool) (x : ℚ) (bits : ℕ) : Prop :=
  ∃ b, bits = (if negative then FP.signMask else 0) ||| b ∧
    Library.NearestEven FP.magnitude FP.infinity x b

end USprache.Ustlib
