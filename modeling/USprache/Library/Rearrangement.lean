import Mathlib.Data.List.Perm.Basic
import Mathlib.Data.List.Nodup
import Mathlib.Logic.Equiv.Basic

/-!
# Rearranged ranges

A range of memory is a function of the index, and an access names the size of the range that it
has to stay in.  An algorithm in place rearranges a part of a range: it permutes the indices of
the part and leaves all others alone.
-/

namespace USprache.Library

open List Function

variable {α : Type} {s s' e e' i j n : Nat} {f g h : Nat → α}

def readAt (n : Nat) (f : Nat → α) (i : Nat) : Option α := if i < n then some (f i) else none

theorem readAt_eq (h : i < n) : readAt n f i = some (f i) := if_pos h

def writeAt (n : Nat) (f : Nat → α) (i : Nat) (x : α) : Option (Nat → α) :=
  if i < n then some (update f i x) else none

theorem writeAt_eq {x : α} (h : i < n) : writeAt n f i x = some (update f i x) := if_pos h

def Rearranged (s e : Nat) (f g : Nat → α) : Prop :=
  ∃ p : Equiv.Perm Nat, (∀ i, ¬(s ≤ i ∧ i < e) → p i = i) ∧ g = f ∘ p

namespace Rearranged

theorem refl (s e : Nat) (f : Nat → α) : Rearranged s e f f := ⟨Equiv.refl Nat, fun _ _ => rfl, rfl⟩

theorem trans (hfg : Rearranged s e f g) (hgh : Rearranged s e g h) : Rearranged s e f h := by
  obtain ⟨p, hp, rfl⟩ := hfg
  obtain ⟨q, hq, rfl⟩ := hgh
  refine ⟨q.trans p, fun i hi => ?_, rfl⟩
  rw [Equiv.trans_apply, hq i hi, hp i hi]

theorem mono (hfg : Rearranged s e f g) (hs : s' ≤ s) (he : e ≤ e') : Rearranged s' e' f g := by
  obtain ⟨p, hp, rfl⟩ := hfg
  exact ⟨p, fun i hi => hp i fun h => hi ⟨Nat.le_trans hs h.1, Nat.lt_of_lt_of_le h.2 he⟩, rfl⟩

theorem swap (f : Nat → α) (hi : s ≤ i ∧ i < e) (hj : s ≤ j ∧ j < e) :
    Rearranged s e f (f ∘ Equiv.swap i j) := by
  refine ⟨Equiv.swap i j, fun k hk => Equiv.swap_apply_of_ne_of_ne ?_ ?_, rfl⟩
  · rintro rfl
    exact hk hi
  · rintro rfl
    exact hk hj

theorem outside (hfg : Rearranged s e f g) (hi : ¬(s ≤ i ∧ i < e)) : g i = f i := by
  obtain ⟨p, hp, rfl⟩ := hfg
  rw [comp_apply, hp i hi]

theorem inside (hfg : Rearranged s e f g) (hi : s ≤ i ∧ i < e) :
    ∃ j, (s ≤ j ∧ j < e) ∧ g i = f j := by
  obtain ⟨p, hp, rfl⟩ := hfg
  refine ⟨p i, by_contra fun hn => ?_, rfl⟩
  -- An index that leaves the part comes from outside of it.
  rw [p.injective (hp (p i) hn)] at hn
  exact hn hi

/-- What holds of all elements of the part before holds of them afterwards. -/
theorem forall_inside {P : α → Prop} (hfg : Rearranged s e f g)
    (hP : ∀ i, s ≤ i → i < e → P (f i)) (i : Nat) (hs : s ≤ i) (he : i < e) : P (g i) := by
  obtain ⟨j, hj, heq⟩ := hfg.inside ⟨hs, he⟩
  rw [heq]
  exact hP j hj.1 hj.2

/-- An element that is held aside moves to where another one has been. -/
theorem moveHole {x : α} (hi : s ≤ i ∧ i < e) (hj : s ≤ j ∧ j < e) :
    Rearranged s e (update f i x) (update (update f i (f j)) j x) := by
  have heq : update (update f i (f j)) j x = update f i x ∘ Equiv.swap i j := by
    funext k
    rw [comp_apply]
    by_cases hkj : k = j
    · rw [hkj, Equiv.swap_apply_right, update_self, update_self]
    · rw [update_of_ne hkj]
      by_cases hki : k = i
      · subst hki
        rw [Equiv.swap_apply_left, update_self, update_of_ne (Ne.symm hkj)]
      · rw [Equiv.swap_apply_of_ne_of_ne hki hkj]
        simp only [update_of_ne hki]
  rw [heq]
  exact .swap _ hi hj

theorem update_outside {x : α} (hfg : Rearranged s e f g) (hi : ¬(s ≤ i ∧ i < e)) :
    Rearranged s e (update f i x) (update g i x) := by
  obtain ⟨p, hp, rfl⟩ := hfg
  refine ⟨p, hp, ?_⟩
  funext k
  rw [comp_apply]
  by_cases hk : k = i
  · rw [hk, hp i hi, update_self, update_self]
  · have hpk : p k ≠ i := fun h => hk (p.injective (h.trans (hp i hi).symm))
    rw [update_of_ne hk, update_of_ne hpk, comp_apply]

theorem perm (hfg : Rearranged 0 n f g) : (map g (range n)).Perm (map f (range n)) := by
  obtain ⟨p, hp, rfl⟩ := hfg
  rw [← map_map]
  refine .map f ((perm_ext_iff_of_nodup (nodup_range.map p.injective) nodup_range).2 fun k => ?_)
  have hin : ∀ i, i < n ↔ p i < n := fun i => by
    refine ⟨fun hi => by_contra fun hn => ?_, fun hi => by_contra fun hn => ?_⟩
    · rw [p.injective (hp (p i) fun h => hn h.2)] at hn
      exact hn hi
    · rw [hp i fun h => hn h.2] at hi
      exact hn hi
  rw [mem_map, mem_range]
  constructor
  · rintro ⟨i, hi, rfl⟩
    exact (hin i).1 (mem_range.1 hi)
  · refine fun hk => ⟨p.symm k, mem_range.2 ((hin _).2 ?_), p.apply_symm_apply k⟩
    rwa [p.apply_symm_apply]

end Rearranged

variable {comp : α → α → Bool}

def SortedOn (comp : α → α → Bool) (s e : Nat) (f : Nat → α) : Prop :=
  ∀ i j, s ≤ i → i < j → j < e → comp (f j) (f i) = false

theorem SortedOn.congr (hf : SortedOn comp s e f) (heq : ∀ i, s ≤ i → i < e → g i = f i) :
    SortedOn comp s e g := by
  intro i j hi hij hj
  rw [heq i hi (Nat.lt_trans hij hj), heq j (Nat.le_trans hi (Nat.le_of_lt hij)) hj]
  exact hf i j hi hij hj

theorem less_or_less [ho : IsStrictWeakOrder α fun a b => comp a b] {a b c : α}
    (h : comp a c = true) : comp a b = true ∨ comp b c = true := by
  by_contra hn
  rw [not_or] at hn
  have hba : ¬comp b a = true := fun hba => hn.2 (ho.trans b a c hba h)
  have hcb : ¬comp c b = true := fun hcb => hn.1 (ho.trans a c b h hcb)
  exact (ho.incomp_trans a b c ⟨hn.1, hba⟩ ⟨hn.2, hcb⟩).1 h

theorem not_less_trans [IsStrictWeakOrder α fun a b => comp a b] {a b c : α}
    (hab : comp a b = false) (hbc : comp b c = false) : comp a c = false := by
  cases hac : comp a c with
  | false => rfl
  | true =>
    rcases less_or_less (b := b) hac with h | h
    · rw [hab] at h
      exact h.symm
    · rw [hbc] at h
      exact h.symm

theorem not_less_of_less [ho : IsStrictWeakOrder α fun a b => comp a b] {a b : α}
    (h : comp a b = true) : comp b a = false :=
  Bool.eq_false_iff.2 fun hba => ho.irrefl a (ho.trans a b a h hba)

end USprache.Library
