import Mathlib.Tactic.Ring

/-!
# Decimal digits

The value of a list of digits, the first one the highest, and the digits of a number.
-/

namespace USprache.Library.Decimal

/-- The value behind the digits, if `v` is the value before them. -/
def valueFrom (v : Nat) (digits : List Nat) : Nat := digits.foldl (fun v d => v * 10 + d) v

variable (v : Nat)

@[simp] theorem valueFrom_nil : valueFrom v [] = v := rfl

@[simp] theorem valueFrom_cons (d : Nat) (ds : List Nat) :
    valueFrom v (d :: ds) = valueFrom (v * 10 + d) ds := rfl

theorem le_valueFrom (ds : List Nat) : v ≤ valueFrom v ds := by
  induction ds generalizing v with
  | nil => exact le_refl v
  | cons d ds ih =>
    have h := ih (v * 10 + d)
    rw [valueFrom_cons]
    omega

def digitsOf : Nat → Nat → List Nat
  | 0, n => [n]
  | k + 1, n => n / 10 ^ (k + 1) :: digitsOf k (n % 10 ^ (k + 1))

theorem valueFrom_digitsOf (k n : Nat) : valueFrom v (digitsOf k n) = v * 10 ^ (k + 1) + n := by
  induction k generalizing v n with
  | zero => simp [digitsOf]
  | succ k ih =>
    have hdiv := Nat.div_add_mod n (10 ^ (k + 1))
    rw [digitsOf, valueFrom_cons, ih]
    calc (v * 10 + n / 10 ^ (k + 1)) * 10 ^ (k + 1) + n % 10 ^ (k + 1)
        = v * 10 ^ (k + 1 + 1) + (10 ^ (k + 1) * (n / 10 ^ (k + 1)) + n % 10 ^ (k + 1)) := by ring
      _ = v * 10 ^ (k + 1 + 1) + n := by rw [hdiv]

theorem digitsOf_lt {k n : Nat} (h : n < 10 ^ (k + 1)) : ∀ d ∈ digitsOf k n, d < 10 := by
  induction k generalizing n with
  | zero =>
    intro d hd
    rw [digitsOf, List.mem_singleton] at hd
    omega
  | succ k ih =>
    intro d hd
    rcases List.mem_cons.1 hd with rfl | hd
    · rw [Nat.div_lt_iff_lt_mul (Nat.pow_pos (by decide)), Nat.mul_comm]
      exact h
    · exact ih (Nat.mod_lt _ (Nat.pow_pos (by decide))) d hd

end USprache.Library.Decimal
