import Mathlib.Data.List.Pairwise
import Mathlib.Data.Nat.Find
import Mathlib.Order.Basic

/-!
# Binary search

The search of a sorted list that halves the rest of it until one place is left.
-/

namespace USprache.Library

open List Option

variable {α : Type*} (r : α → α → Prop) [DecidableRel r]

/-- The loop of `std::lower_bound` over `length` elements from `first` on. -/
def lowerBoundLoop (xs : List α) (v : α) : Nat → Nat → Nat → Nat
  | 0, first, _ => first
  | fuel + 1, first, length =>
    if length = 0 then first
    else if xs[first + length / 2]?.any fun x => decide (r x v) then
      lowerBoundLoop xs v fuel (first + length / 2 + 1) (length - length / 2 - 1)
    else lowerBoundLoop xs v fuel first (length / 2)

def lowerBound (xs : List α) (v : α) : Nat := lowerBoundLoop r xs v xs.length 0 xs.length

def binarySearch (xs : List α) (v : α) : Bool := xs[lowerBound r xs v]?.any fun x => !decide (r v x)

variable {r} {xs : List α}

omit [DecidableRel r] in
/-- What is in front of a smaller element is smaller, too. -/
theorem less_of_le [IsTrans α r] (hsrt : xs.Pairwise r) {i j : Nat} {x y v : α}
    (hx : xs[i]? = some x) (hy : xs[j]? = some y) (hij : i ≤ j) (hless : r y v) : r x v := by
  rcases lt_or_eq_of_le hij with hlt | heq
  · obtain ⟨hi, hix⟩ := List.getElem?_eq_some_iff.1 hx
    obtain ⟨hj, hjy⟩ := List.getElem?_eq_some_iff.1 hy
    have hxy : r x y := by
      rw [← hix, ← hjy]
      exact pairwise_iff_getElem.1 hsrt i j hi hj hlt
    exact trans_of r hxy hless
  · rw [heq, hy] at hx
    rw [← some.inj hx]
    exact hless

/-- The loop keeps the smaller elements in front of its range, and the others behind it. -/
theorem lowerBoundLoop_spec [IsTrans α r] (hsrt : xs.Pairwise r) (v : α) :
    ∀ {fuel first len : Nat}, len ≤ fuel → first + len ≤ xs.length →
      (∀ i x, xs[i]? = some x → i < first → r x v) →
      (∀ i x, xs[i]? = some x → first + len ≤ i → ¬ r x v) →
      ∀ i x, xs[i]? = some x → (r x v ↔ i < lowerBoundLoop r xs v fuel first len) := by
  intro fuel
  induction fuel with
  | zero =>
    intro first len hf _ hb hab i x hx
    have hlen : len = 0 := by omega
    rw [hlen] at hab
    constructor
    · intro hlt
      have hnot : ¬ first + 0 ≤ i := fun h => hab i x hx h hlt
      show i < first
      omega
    · exact hb i x hx
  | succ fuel ih =>
    intro first len hf hbd hb hab
    rw [lowerBoundLoop]
    split
    · intro i x hx
      constructor
      · intro hlt
        have hnot : ¬ first + len ≤ i := fun h => hab i x hx h hlt
        omega
      · exact hb i x hx
    · have hhalf : first + len / 2 < xs.length := by omega
      have hmid : xs[first + len / 2]? = some xs[first + len / 2] := getElem?_eq_getElem hhalf
      split
      · rename_i hlt
        rw [hmid, any_some, decide_eq_true_eq] at hlt
        apply ih (by omega) (by omega)
        · intro i x hx hi
          exact less_of_le hsrt hx hmid (by omega) hlt
        · intro i x hx hi
          exact hab i x hx (by omega)
      · rename_i hnot
        rw [hmid, any_some, decide_eq_true_eq] at hnot
        apply ih (by omega) (by omega) hb
        intro i x hx hi hlt
        exact hnot (less_of_le hsrt hmid hx hi hlt)

theorem lowerBound_spec [IsTrans α r] (hsrt : xs.Pairwise r) (v : α) {i : Nat} {x : α}
    (hx : xs[i]? = some x) : r x v ↔ i < lowerBound r xs v := by
  apply lowerBoundLoop_spec hsrt v (le_refl _) (by omega) _ _ i x hx
  · intro i x _ hi
    exact absurd hi (Nat.not_lt_zero i)
  · intro i x hx hi
    have hlt := (List.getElem?_eq_some_iff.1 hx).1
    omega

/-- Over a sorted list without duplicates, the search is membership. -/
theorem binarySearch_iff [IsStrictTotalOrder α r] (hsrt : xs.Pairwise r) (v : α) :
    binarySearch r xs v = true ↔ v ∈ xs := by
  unfold binarySearch
  constructor
  · intro h
    obtain ⟨x, hx, hnot⟩ := (any_eq_true _ _).1 h
    have hle : ¬ r x v := by
      rw [lowerBound_spec hsrt v hx]
      exact lt_irrefl _
    have hge : ¬ r v x := by simpa using hnot
    have heq : x = v := Std.Trichotomous.trichotomous x v hle hge
    rw [← heq]
    exact mem_of_getElem? hx
  · intro hv
    obtain ⟨k, hk⟩ := mem_iff_getElem?.1 hv
    have hle : lowerBound r xs v ≤ k := by
      apply Nat.le_of_not_lt
      rw [← lowerBound_spec hsrt v hk]
      exact irrefl_of r v
    obtain ⟨hbd, hkv⟩ := List.getElem?_eq_some_iff.1 hk
    have heq : lowerBound r xs v = k := by
      apply le_antisymm hle
      apply Nat.le_of_not_lt
      intro hlt
      have hx : xs[lowerBound r xs v]? = some xs[lowerBound r xs v] :=
        getElem?_eq_getElem (by omega)
      have hless := pairwise_iff_getElem.1 hsrt _ _ (by omega) hbd hlt
      rw [hkv] at hless
      exact lt_irrefl _ ((lowerBound_spec hsrt v hx).1 hless)
    rw [heq, hk, any_some, Bool.not_eq_true', decide_eq_false_iff_not]
    exact irrefl_of r v

end USprache.Library

/-!
## Linear probing

A probe walks through a table of `n` cells from a home cell on, one cell at a
time and around the end.  What a table with linear probing keeps is that every
stored cell can be reached from its home over occupied cells only, so that a
search may stop at the first free cell.
-/

namespace USprache.LinearProbing

/-- The cell `d` steps behind the home cell. -/
def slot (n home d : Nat) : Nat := (home + d) % n

theorem slot_succ (n home d : Nat) : slot n home (d + 1) = (slot n home d + 1) % n := by
  rw [slot, slot, Nat.mod_add_mod, Nat.add_assoc]

theorem exists_slot_eq {n i : Nat} (home : Nat) (hi : i < n) : ∃ d < n, slot n home d = i := by
  have hlt : home % n < n := Nat.mod_lt _ (by omega)
  refine ⟨(i + (n - home % n)) % n, Nat.mod_lt _ (by omega), ?_⟩
  rw [slot, Nat.add_mod_mod, ← Nat.mod_add_mod]
  have hsum : home % n + (i + (n - home % n)) = i + n := by omega
  rw [hsum, Nat.add_mod_right, Nat.mod_eq_of_lt hi]

/-- The first step at which a probe meets a given kind of cell. -/
theorem exists_first_slot {n i : Nat} (stop : Nat → Prop) (home : Nat) (hi : i < n)
    (hsto : stop i) :
    ∃ d < n, stop (slot n home d) ∧ ∀ e < d, ¬ stop (slot n home e) := by
  classical
  obtain ⟨d, hd, rfl⟩ := exists_slot_eq home hi
  have hex : ∃ d, stop (slot n home d) := ⟨d, hsto⟩
  refine ⟨Nat.find hex, ?_, Nat.find_spec hex, fun e he => Nat.find_min hex he⟩
  exact lt_of_le_of_lt (Nat.find_min' hex hsto) hd

/-- The walk from the home cell to cell `i` goes over occupied cells. -/
def Reaches (occupied : Nat → Prop) (n home i : Nat) : Prop :=
  ∃ d < n, slot n home d = i ∧ ∀ e < d, occupied (slot n home e)

namespace Reaches

variable {occupied occupied' : Nat → Prop} {n home i : Nat}

theorem mono (h : Reaches occupied n home i) (hle : ∀ j, occupied j → occupied' j) :
    Reaches occupied' n home i := by
  obtain ⟨d, hd, hslot, hwk⟩ := h
  exact ⟨d, hd, hslot, fun e he => hle _ (hwk e he)⟩

/-- Freeing cell `v` cuts no walk to another occupied cell if the cell after `v`
is free: a walk through `v` would go on to that cell. -/
theorem vacate {v : Nat} (h : Reaches occupied n home i) (hnx : ¬ occupied ((v + 1) % n))
    (hi : occupied i) : Reaches (fun j => occupied j ∧ j ≠ v) n home i := by
  obtain ⟨d, hd, hslot, hwk⟩ := h
  refine ⟨d, hd, hslot, fun e he => ⟨hwk e he, ?_⟩⟩
  intro hv
  have hsucc : slot n home (e + 1) = (v + 1) % n := by rw [slot_succ, hv]
  rcases lt_or_ge (e + 1) d with hlt | hge
  · exact hnx (hsucc ▸ hwk (e + 1) hlt)
  · have hde : e + 1 = d := by omega
    rw [hde, hslot] at hsucc
    exact hnx (hsucc ▸ hi)

end Reaches

end USprache.LinearProbing
