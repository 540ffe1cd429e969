import Mathlib.Algebra.BigOperators.Group.Finset.Piecewise

/-!
# Sums over a family that changes at one index
-/

namespace USprache.Library

open Function Finset

variable {ι V M : Type*} [Fintype ι] [DecidableEq ι] [AddCommMonoid M]

theorem sum_update_add (g : V → M) (f : ι → V) (i : ι) (x : V) :
    ∑ j, g (update f i x j) + g (f i) = ∑ j, g (f j) + g x := by
  have hupd : ∀ j, g (update f i x j) = update (fun j => g (f j)) i (g x) j := by
    intro j
    exact apply_update (fun _ => g) f i x j
  simp only [hupd]
  rw [sum_update_of_mem (mem_univ i),
    sum_eq_add_sum_sdiff_singleton_of_mem (mem_univ i) fun j => g (f j)]
  ac_rfl

end USprache.Library
