import Mathlib.Data.Nat.Bitwise
import Mathlib.Tactic.Linarith
import Mathlib.Tactic.Positivity
import Mathlib.Tactic.Ring

/-!
# Rounding to the nearest of increasing values

The values of a number format are numbered in increasing order.  A number is rounded to the
nearest of them, to the one with an even index if two are equally near.
-/

namespace USprache.Library

open Bool Nat

section

variable {K : Type*} [Field K] [LinearOrder K] [IsStrictOrderedRing K]

/-- `v b` is the nearest to `x` of the values up to `top`, and at a tie `b` is even. -/
structure NearestEven (v : ℕ → K) (top : ℕ) (x : K) (b : ℕ) : Prop where
  le_top : b ≤ top
  nearest : ∀ b' ≤ top, b' ≠ b →
    |x - v b| < |x - v b'| ∨ |x - v b| = |x - v b'| ∧ Even b

namespace NearestEven

variable {v : ℕ → K} {top : ℕ} {x : K} {b : ℕ}

/-- Above the last value the last value is the nearest. -/
theorem of_top_le (hv : StrictMono v) (hx : v top ≤ x) : NearestEven v top x top := by
  refine ⟨le_refl top, fun b' hb' hne => .inl ?_⟩
  have hlt : v b' < v top := hv (lt_of_le_of_ne hb' hne)
  rw [abs_of_nonneg (sub_nonneg.2 hx), abs_of_pos (sub_pos.2 (hlt.trans_le hx))]
  linarith

theorem of_lower (hv : StrictMono v) (hx : v b ≤ x)
    (h : x - v b < v (b + 1) - x ∨ x - v b = v (b + 1) - x ∧ Even b) :
    NearestEven v top x (min b top) := by
  by_cases htop : b ≤ top
  · rw [min_eq_left htop]
    refine ⟨htop, fun b' _ hne => ?_⟩
    rw [abs_of_nonneg (sub_nonneg.2 hx)]
    rcases lt_or_gt_of_ne hne with hlt | hgt
    · have hv' : v b' < v b := hv hlt
      rw [abs_of_pos (sub_pos.2 (hv'.trans_le hx))]
      exact .inl (by linarith)
    · have hv' : v (b + 1) ≤ v b' := hv.monotone hgt
      have hfar : v (b + 1) - x ≤ |x - v b'| := by
        rw [abs_sub_comm]
        exact (sub_le_sub_right hv' x).trans (le_abs_self _)
      rcases h with hlt | ⟨heq, heven⟩
      · exact .inl (hlt.trans_le hfar)
      · rcases (heq.le.trans hfar).lt_or_eq with hlt | heq'
        · exact .inl hlt
        · exact .inr ⟨heq', heven⟩
  · have hlt : top < b := Nat.lt_of_not_le htop
    rw [min_eq_right hlt.le]
    exact of_top_le hv ((hv hlt).le.trans hx)

theorem of_upper (hv : StrictMono v) (hx : x ≤ v (b + 1))
    (h : v (b + 1) - x < x - v b ∨ v (b + 1) - x = x - v b ∧ Even (b + 1)) :
    NearestEven v top x (min (b + 1) top) := by
  have hst : v b < v (b + 1) := hv (lt_succ_self b)
  have hlo : v b < x := by
    rcases h with h | ⟨h, _⟩ <;> linarith
  by_cases htop : b + 1 ≤ top
  · rw [min_eq_left htop]
    refine ⟨htop, fun b' _ hne => ?_⟩
    rw [abs_sub_comm, abs_of_nonneg (sub_nonneg.2 hx)]
    rcases lt_or_gt_of_ne hne with hlt | hgt
    · have hv' : v b' ≤ v b := hv.monotone (Nat.lt_succ_iff.1 hlt)
      have hfar : x - v b ≤ |x - v b'| := (sub_le_sub_left hv' x).trans (le_abs_self _)
      rcases h with hlt | ⟨heq, heven⟩
      · exact .inl (hlt.trans_le hfar)
      · rcases (heq.le.trans hfar).lt_or_eq with hlt | heq'
        · exact .inl hlt
        · exact .inr ⟨heq', heven⟩
    · have hv' : v (b + 1) < v b' := hv hgt
      rw [abs_sub_comm x, abs_of_pos (sub_pos.2 (hx.trans_lt hv'))]
      exact .inl (by linarith)
  · have hle : top ≤ b := by omega
    rw [min_eq_right (by omega)]
    exact of_top_le hv ((hv.monotone hle).trans hlo.le)

theorem of_eq (hv : StrictMono v) (hx : x = v b) : NearestEven v top x (min b top) := by
  refine of_lower hv hx.ge (.inl ?_)
  have hst : v b < v (b + 1) := hv (lt_succ_self b)
  rw [hx, sub_self]
  exact sub_pos.2 hst

/-- Between the middles to the adjacent values there is no other nearest one. -/
theorem eq_of_between (hv : StrictMono v) {b' : ℕ} (h : NearestEven v top x b') (hb : b ≤ top)
    (hlo : ∀ a, b = a + 1 → v a + v b < 2 * x) (hup : 2 * x < v b + v (b + 1)) : b' = b := by
  by_contra hne
  have hle : |x - v b'| ≤ |x - v b| := by
    rcases h.nearest b hb (Ne.symm hne) with h | ⟨h, -⟩
    · exact h.le
    · exact h.le
  refine absurd hle (not_le.2 ?_)
  rcases lt_or_gt_of_ne hne with hlt | hgt
  · obtain ⟨a, rfl⟩ := Nat.exists_eq_add_of_lt hlt
    have ha : v b' ≤ v (b' + a) := hv.monotone (le_add_right b' a)
    have hst : v (b' + a) < v (b' + a + 1) := hv (lt_succ_self _)
    have hmid := hlo (b' + a) rfl
    rw [abs_of_pos (by linarith : 0 < x - v b'), abs_lt]
    constructor <;> linarith
  · have ha : v (b + 1) ≤ v b' := hv.monotone hgt
    have hst : v b < v (b + 1) := hv (lt_succ_self b)
    rw [abs_sub_comm x (v b'), abs_of_pos (by linarith : 0 < v b' - x), abs_lt]
    constructor <;> linarith

end NearestEven

theorem mod_two_pow_succ (V f : ℕ) : V % 2 ^ (f + 1) = V % 2 ^ f + 2 ^ f * (V.testBit f).toNat := by
  rw [mod_pow_succ, testBit_eq_decide_div_mod_eq]
  rcases mod_two_eq_zero_or_one (V / 2 ^ f) with h | h <;> simp [h]

variable {v : ℕ → K} {b top V f : ℕ} {x u δ : K}

/-- Two adjacent values are multiples of `u`, and the number between them is given in
units of `2 ^ (f + 1)`-th parts of `u` as `V` with a lost fraction `δ`.  The bits of `V` and
whether the fraction is zero decide which of the two is the nearest. -/
theorem NearestEven.of_guard_sticky (hv : StrictMono v) (hu : 0 < u)
    (hlow : v b = (V / 2 ^ (f + 1) : ℕ) * u) (hhi : v (b + 1) = ((V / 2 ^ (f + 1) : ℕ) + 1) * u)
    (hx : x * 2 ^ (f + 1) = (V + δ) * u) (hδ : 0 ≤ δ) (hδ' : δ < 1)
    (heven : Even b ↔ Even (V / 2 ^ (f + 1))) {roundUp : Bool}
    (hrou : roundUp = true ↔
      V.testBit f = true ∧ (V % 2 ^ f ≠ 0 ∨ δ ≠ 0 ∨ ¬Even (V / 2 ^ (f + 1)))) :
    NearestEven v top x (min (b + roundUp.toNat) top) := by
  have hpow : (0 : K) < 2 ^ f := by positivity
  obtain ⟨d, hd⟩ : ∃ d, d = (V % 2 ^ f : ℕ) + δ := ⟨_, rfl⟩
  have hsp : (V : K) + δ =
      2 ^ (f + 1) * (V / 2 ^ (f + 1) : ℕ) + (d + 2 ^ f * (V.testBit f).toNat) := by
    have h := div_add_mod V (2 ^ (f + 1))
    rw [mod_two_pow_succ] at h
    have h' := congrArg (Nat.cast : ℕ → K) h
    push_cast at h'
    rw [← h', hd]
    ring
  have hd_non : 0 ≤ d := by
    rw [hd]
    positivity
  have hd_lt : d < 2 ^ f := by
    have h : V % 2 ^ f + 1 ≤ 2 ^ f := mod_lt _ (Nat.two_pow_pos f)
    have h' : ((V % 2 ^ f : ℕ) : K) + 1 ≤ 2 ^ f := by exact_mod_cast h
    linarith
  -- The distances to the two values, in the same parts of `u`.
  have hb : (x - v b) * 2 ^ (f + 1) = (d + 2 ^ f * (V.testBit f).toNat) * u := by
    rw [sub_mul, hx, hsp, hlow]
    ring
  have hab : (v (b + 1) - x) * 2 ^ (f + 1) =
      (2 ^ (f + 1) - (d + 2 ^ f * (V.testBit f).toNat)) * u := by
    rw [sub_mul, hx, hsp, hhi]
    ring
  have hpts : (0 : K) < 2 ^ (f + 1) := by positivity
  have hle : v b ≤ x := by
    have h : 0 ≤ (x - v b) * 2 ^ (f + 1) := by
      rw [hb]
      positivity
    exact sub_nonneg.1 (nonneg_of_mul_nonneg_left h hpts)
  cases hgua : V.testBit f with
  | false =>
    have hdown : roundUp = false := by
      rw [← not_eq_true, hrou, hgua]
      simp
    rw [hdown, toNat_false, add_zero]
    refine of_lower hv hle (.inl (lt_of_mul_lt_mul_right ?_ hpts.le))
    rw [hb, hab, hgua]
    refine mul_lt_mul_of_pos_right ?_ hu
    simp only [toNat_false, cast_zero, mul_zero, add_zero, pow_succ]
    linarith
  | true =>
    rw [hgua, toNat_true, cast_one, mul_one] at hb hab
    have hge : x ≤ v (b + 1) := by
      have h : 0 ≤ (v (b + 1) - x) * 2 ^ (f + 1) := by
        rw [hab]
        refine mul_nonneg ?_ hu.le
        rw [pow_succ]
        linarith
      exact sub_nonneg.1 (nonneg_of_mul_nonneg_left h hpts)
    have hz : d = 0 ↔ V % 2 ^ f = 0 ∧ δ = 0 := by
      rw [hd, add_eq_zero_iff_of_nonneg (cast_nonneg _) hδ, cast_eq_zero]
    by_cases hd0 : d = 0
    · -- A tie, which the parity of the quotient decides.
      have htie : x - v b = v (b + 1) - x := by
        refine mul_right_cancel₀ hpts.ne' ?_
        rw [hb, hab, hd0, pow_succ]
        ring
      have hsti := hz.1 hd0
      by_cases hodd : Even (V / 2 ^ (f + 1))
      · have hdown : roundUp = false := by
          rw [← not_eq_true, hrou]
          simp [hsti, hodd]
        rw [hdown, toNat_false, add_zero]
        exact of_lower hv hle (.inr ⟨htie, heven.2 hodd⟩)
      · have hup : roundUp = true := hrou.2 ⟨hgua, .inr (.inr hodd)⟩
        rw [hup, toNat_true]
        refine of_upper hv hge (.inr ⟨htie.symm, ?_⟩)
        rw [even_add_one, heven]
        exact hodd
    · have hup : roundUp = true := by
        refine hrou.2 ⟨hgua, ?_⟩
        by_contra hnot
        push Not at hnot
        exact hd0 (hz.2 ⟨hnot.1, hnot.2.1⟩)
      rw [hup, toNat_true]
      refine of_upper hv hge (.inl (lt_of_mul_lt_mul_right ?_ hpts.le))
      rw [hb, hab]
      refine mul_lt_mul_of_pos_right ?_ hu
      have hd_pos : 0 < d := lt_of_le_of_ne hd_non (Ne.symm hd0)
      rw [pow_succ]
      linarith

end

end USprache.Library
