import Mathlib.Data.List.Perm.Basic
import Mathlib.Order.Basic

/-!
# Selection by positions

Candidates are compared at several positions, each with a preorder of its own, and not every
candidate takes part at every position.  Where some candidate is at least as good as all others
it eliminates those that are worse; the only candidate that is left is selected.
-/

namespace USprache.Library

open List

variable {α N : Type*}

/-- The positions, who takes part at each, and `le n x y`: at `n`, `x` is at least as good as
`y`. -/
structure Comparisons (α N : Type*) where
  positions : List N
  takesPart : N → α → Prop
  le : N → α → α → Prop
  refl : ∀ n x, le n x x
  trans : ∀ n x y z, le n x y → le n y z → le n x z

namespace Comparisons

variable (C : Comparisons α N)

/-- At the position `n` the candidate is at least as good as all others. -/
structure IsBest (candidates : List α) (n : N) (x : α) : Prop where
  mem : x ∈ candidates
  takesPart : C.takesPart n x
  le : ∀ y ∈ candidates, C.takesPart n y → C.le n x y

def Survives (candidates : List α) (x : α) : Prop :=
  ∀ n ∈ C.positions, C.takesPart n x → ∀ best, C.IsBest candidates n best → C.le n x best

variable {C} {candidates others : List α} {n : N} {x y f : α}

theorem IsBest.of_le (h : C.IsBest candidates n y) (hmem : x ∈ candidates)
    (htk : C.takesPart n x) (hle : C.le n x y) : C.IsBest candidates n x where
  mem := hmem
  takesPart := htk
  le z hz hpart := C.trans n x y z hle (h.le z hz hpart)

theorem IsBest.congr (h : ∀ z, z ∈ candidates ↔ z ∈ others) (hbe : C.IsBest candidates n x) :
    C.IsBest others n x where
  mem := (h x).1 hbe.mem
  takesPart := hbe.takesPart
  le y hy htk := hbe.le y ((h y).2 hy) htk

theorem survives_congr (h : ∀ z, z ∈ candidates ↔ z ∈ others) :
    C.Survives candidates x ↔ C.Survives others x := by
  constructor
  · intro hsv n hn htk best hbe
    exact hsv n hn htk best (hbe.congr fun z => (h z).symm)
  · intro hsv n hn htk best hbe
    exact hsv n hn htk best (hbe.congr h)

def onlyOf : List α → Option α
  | [x] => some x
  | _ => none

theorem onlyOf_eq_some {xs : List α} : onlyOf xs = some x ↔ xs = [x] := by
  match xs with
  | [] | [y] | y :: z :: ys => simp [onlyOf]

theorem onlyOf_perm {xs ys : List α} (h : xs.Perm ys) : onlyOf xs = onlyOf ys := by
  match xs, h with
  | [], h => rw [nil_perm.1 h]
  | [x], h => rw [singleton_perm.1 h]
  | x :: z :: xs, h =>
    have hlen := h.length_eq
    match ys, hlen with
    | y :: w :: ys, _ => rfl

section Select

variable [DecidablePred (C.Survives candidates)]

/-- The candidate that is left when all others are eliminated. -/
def select (C : Comparisons α N) (candidates : List α)
    [DecidablePred (C.Survives candidates)] : Option α :=
  onlyOf (candidates.filter fun x => decide (C.Survives candidates x))

theorem mem_of_select (h : C.select candidates = some f) : f ∈ candidates := by
  have hmem : f ∈ candidates.filter fun x => decide (C.Survives candidates x) := by
    rw [onlyOf_eq_some.1 h]
    exact mem_singleton_self f
  exact (mem_filter.1 hmem).1

theorem survives_of_select (h : C.select candidates = some f) : C.Survives candidates f := by
  have hmem : f ∈ candidates.filter fun x => decide (C.Survives candidates x) := by
    rw [onlyOf_eq_some.1 h]
    exact mem_singleton_self f
  exact of_decide_eq_true (mem_filter.1 hmem).2

/-- The selected candidate is a best one wherever there is one, so no other is better there. -/
theorem select_isBest (h : C.select candidates = some f) (hn : n ∈ C.positions)
    (htk : C.takesPart n f) (hbe : C.IsBest candidates n y) : C.IsBest candidates n f :=
  hbe.of_le (mem_of_select h) htk (survives_of_select h n hn htk y hbe)

end Select

theorem select_perm [DecidablePred (C.Survives candidates)] [DecidablePred (C.Survives others)]
    (h : candidates.Perm others) : C.select candidates = C.select others := by
  have hiff : ∀ x, decide (C.Survives candidates x) = decide (C.Survives others x) :=
    fun x => decide_eq_decide.2 (survives_congr fun z => h.mem_iff)
  have hfil : (candidates.filter fun x => decide (C.Survives candidates x)).Perm
      (others.filter fun x => decide (C.Survives others x)) := by
    rw [show (fun x => decide (C.Survives others x)) = fun x => decide (C.Survives candidates x)
      from funext fun x => (hiff x).symm]
    exact h.filter _
  exact onlyOf_perm hfil

/-- With `added` the same positions have best candidates, and these stay the best. -/
structure AddsNoBest (C : Comparisons α N) (candidates : List α) (added : α) : Prop where
  keeps : ∀ n ∈ C.positions, ∀ best, C.IsBest candidates n best → C.takesPart n added →
    C.le n best added
  noNew : ∀ n ∈ C.positions, C.IsBest (added :: candidates) n added →
    ∃ best, C.IsBest candidates n best

variable {added : α}

theorem IsBest.of_cons (h : C.IsBest (added :: candidates) n x) (hmem : x ∈ candidates) :
    C.IsBest candidates n x where
  mem := hmem
  takesPart := h.takesPart
  le y hy htk := h.le y (mem_cons_of_mem added hy) htk

theorem AddsNoBest.isBest_cons (h : C.AddsNoBest candidates added) (hn : n ∈ C.positions)
    (hbe : C.IsBest candidates n x) : C.IsBest (added :: candidates) n x where
  mem := mem_cons_of_mem added hbe.mem
  takesPart := hbe.takesPart
  le y hy htk := by
    rcases mem_cons.1 hy with rfl | hy
    · exact h.keeps n hn x hbe htk
    · exact hbe.le y hy htk

theorem AddsNoBest.survives_iff (h : C.AddsNoBest candidates added) :
    C.Survives (added :: candidates) x ↔ C.Survives candidates x := by
  constructor
  · intro hsv n hn htk best hbe
    exact hsv n hn htk best (h.isBest_cons hn hbe)
  · intro hsv n hn htk best hbe
    rcases mem_cons.1 hbe.mem with hadd | hmem
    · -- Some best candidate was there before and is as good as the added one.
      rw [hadd] at hbe ⊢
      obtain ⟨old, hold⟩ := h.noNew n hn hbe
      have hle : C.le n old added := h.keeps n hn old hold hbe.takesPart
      exact C.trans n x old added (hsv n hn htk old hold) hle
    · exact hsv n hn htk best (hbe.of_cons hmem)

theorem AddsNoBest.select_cons [DecidablePred (C.Survives candidates)]
    [DecidablePred (C.Survives (added :: candidates))] (h : C.AddsNoBest candidates added)
    (hadd : ¬ C.Survives candidates added) :
    C.select (added :: candidates) = C.select candidates := by
  have hnot : ¬ C.Survives (added :: candidates) added := fun hs => hadd (h.survives_iff.1 hs)
  have hdec : ∀ x, decide (C.Survives (added :: candidates) x) =
      decide (C.Survives candidates x) := fun x => decide_eq_decide.2 h.survives_iff
  unfold select
  rw [filter_cons, decide_eq_false hnot]
  exact congrArg onlyOf (filter_congr fun x _ => hdec x)

end Comparisons
end USprache.Library
