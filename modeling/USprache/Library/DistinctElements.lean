import Mathlib.Data.List.Destutter

/-!
# The first distinct elements of a list

A table of a limited size takes every element it does not hold yet, as long as it has room.
It then holds the first distinct elements of the list, in the order of their first
occurrence.
-/

namespace USprache.Library

open List

variable {α : Type*} [DecidableEq α]

def firstDistinct (n : Nat) (l : List α) : List α := l.eraseDups.take n

/-- One more element comes to a table of at most `n` elements. -/
def addDistinct (n : Nat) (table : List α) (a : α) : List α :=
  if a ∈ table ∨ n ≤ table.length then table else table ++ [a]

variable {n : Nat} {a : α}

theorem addDistinct_of_mem {t : List α} (h : a ∈ t) : addDistinct n t a = t := if_pos (.inl h)

theorem addDistinct_of_not_mem {t : List α} (h : a ∉ t) :
    addDistinct n t a = if t.length < n then t ++ [a] else t := by
  rw [addDistinct]
  by_cases hrm : t.length < n
  · rw [if_pos hrm, if_neg (by simp only [h, false_or]; omega)]
  · rw [if_neg hrm, if_pos (.inr (by omega))]

@[simp] theorem firstDistinct_nil (n : Nat) : firstDistinct n ([] : List α) = [] := by
  simp [firstDistinct]

theorem length_firstDistinct_le (n : Nat) (l : List α) : (firstDistinct n l).length ≤ n := by
  exact length_take_le n _

theorem mem_of_mem_firstDistinct {l : List α} (h : a ∈ firstDistinct n l) : a ∈ l :=
  mem_eraseDups.1 (mem_of_mem_take h)

theorem eraseDups_concat (l : List α) (a : α) :
    (l ++ [a]).eraseDups = if a ∈ l then l.eraseDups else l.eraseDups ++ [a] := by
  rw [eraseDups_append]
  by_cases ha : a ∈ l
  · simp [removeAll, ha]
  · simp [removeAll, ha, eraseDups_cons]

theorem nodup_eraseDups (l : List α) : l.eraseDups.Nodup := by
  induction l using reverseRecOn with
  | nil => simp
  | append_singleton l a ih =>
    rw [eraseDups_concat]
    split
    · exact ih
    case isFalse ha =>
      rw [nodup_append]
      refine ⟨ih, nodup_singleton a, fun b hb c hc => ?_⟩
      rw [mem_eraseDups] at hb
      rw [mem_singleton] at hc
      exact fun heq => ha (hc ▸ heq ▸ hb)

theorem nodup_firstDistinct (n : Nat) (l : List α) : (firstDistinct n l).Nodup :=
  (nodup_eraseDups l).sublist (take_sublist n _)

theorem idxOf?_firstDistinct_eq_some_iff [BEq α] [LawfulBEq α] {l : List α} {i : Nat} :
    (firstDistinct n l).idxOf? a = some i ↔ (firstDistinct n l)[i]? = some a := by
  rw [idxOf?_eq_some_iff]
  constructor
  · rintro ⟨hlt, hget, -⟩
    rw [getElem?_eq_getElem hlt, hget]
  · intro hget
    obtain ⟨hlt, hget⟩ := List.getElem?_eq_some_iff.1 hget
    refine ⟨hlt, hget, fun j hj heq => ?_⟩
    have hij := (nodup_firstDistinct n l).getElem_inj_iff.1 (heq.trans hget.symm)
    omega

theorem firstDistinct_concat (n : Nat) (l : List α) (a : α) :
    firstDistinct n (l ++ [a]) = addDistinct n (firstDistinct n l) a := by
  rw [addDistinct, firstDistinct, eraseDups_concat]
  by_cases hfu : n ≤ (firstDistinct n l).length
  · -- What comes to a full table is cut off.
    rw [if_pos (Or.inr hfu)]
    have hlen : n ≤ l.eraseDups.length := by
      rw [firstDistinct, length_take] at hfu
      omega
    split
    · rfl
    · rw [take_append_of_le_length hlen, firstDistinct]
  · have hrm : l.eraseDups.length < n := by
      rw [firstDistinct, length_take] at hfu
      omega
    have htab : firstDistinct n l = l.eraseDups := take_of_length_le (by omega)
    rw [htab]
    by_cases ha : a ∈ l
    · rw [if_pos ha, if_pos (.inl (mem_eraseDups.2 ha))]
      exact take_of_length_le (by omega)
    · rw [if_neg ha, if_neg (by simp [ha, hrm])]
      apply take_of_length_le
      rw [length_append, length_singleton]
      omega

theorem foldl_addDistinct (n : Nat) (l l' : List α) :
    l'.foldl (addDistinct n) (firstDistinct n l) = firstDistinct n (l ++ l') := by
  induction l' generalizing l with
  | nil => rw [foldl_nil, append_nil]
  | cons a l' ih =>
    rw [foldl_cons, ← firstDistinct_concat, ih, append_assoc, singleton_append]

end USprache.Library

/-!
## Sorted lists without duplicates

A list is normalised by a sort and by the removal of equal neighbours.
-/

namespace USprache.Library

variable {α : Type*} [DecidableEq α]

/-- `std::sort`, then `std::unique`. -/
def sortUnique (r : α → α → Prop) [DecidableRel r] (xs : List α) : List α :=
  (xs.mergeSort fun a b => !decide (r b a)).destutter (· ≠ ·)

theorem mem_destutter'_ne {a b : α} (xs : List α) :
    b ∈ xs.destutter' (· ≠ ·) a ↔ b = a ∨ b ∈ xs := by
  induction xs generalizing a with
  | nil => simp
  | cons x xs ih =>
    by_cases hne : a ≠ x
    · rw [List.destutter'_cons_pos _ hne, List.mem_cons, ih, List.mem_cons]
    · have heq : a = x := not_not.1 hne
      rw [List.destutter'_cons_neg _ hne, ih, List.mem_cons, ← heq, ← or_assoc, or_self]

variable {r : α → α → Prop} [DecidableRel r]

theorem mem_sortUnique {x : α} {xs : List α} : x ∈ sortUnique r xs ↔ x ∈ xs := by
  have hdes : ∀ ys : List α, x ∈ ys.destutter (· ≠ ·) ↔ x ∈ ys := by
    intro ys
    cases ys with
    | nil => exact Iff.rfl
    | cons y ys => rw [List.destutter_cons', mem_destutter'_ne, List.mem_cons]
  rw [sortUnique, hdes, List.mem_mergeSort]

omit [DecidableEq α] [DecidableRel r] in
theorem isChain_of_sorted [IsStrictTotalOrder α r] {xs : List α}
    (hsrt : xs.IsChain fun a b => ¬ r b a) (hne : xs.IsChain fun a b => a ≠ b) :
    xs.IsChain r := by
  induction xs with
  | nil => exact List.isChain_nil
  | cons x xs ih =>
    cases xs with
    | nil => exact List.isChain_singleton x
    | cons y xs =>
      rw [List.isChain_cons_cons] at hsrt hne ⊢
      refine ⟨?_, ih hsrt.2 hne.2⟩
      rcases trichotomous_of r x y with h | h | h
      · exact h
      · exact absurd h hne.1
      · exact absurd h hsrt.1

theorem pairwise_sortUnique [IsStrictTotalOrder α r] (xs : List α) :
    (sortUnique r xs).Pairwise r := by
  have hsrt : (xs.mergeSort fun a b => !decide (r b a)).Pairwise fun a b =>
      (!decide (r b a)) = true := by
    refine List.pairwise_mergeSort (fun a b c hab hbc => ?_) (fun a b => ?_) xs
    · rw [Bool.not_eq_true', decide_eq_false_iff_not] at hab hbc ⊢
      intro hca
      rcases trichotomous_of r a b with h | h | h
      · exact hbc (trans_of r hca h)
      · exact hbc (h ▸ hca)
      · exact hab h
    · simp only [Bool.or_eq_true, Bool.not_eq_true', decide_eq_false_iff_not]
      by_cases hba : r b a
      · exact .inr fun hab => irrefl_of r a (trans_of r hab hba)
      · exact .inl hba
  have hle : (sortUnique r xs).IsChain fun a b => ¬ r b a := by
    refine ((hsrt.sublist (List.destutter_sublist (fun a b : α => a ≠ b) _)).imp ?_).isChain
    intro a b h
    rwa [Bool.not_eq_true', decide_eq_false_iff_not] at h
  rw [← List.isChain_iff_pairwise]
  exact isChain_of_sorted hle (List.isChain_destutter (fun a b : α => a ≠ b) _)

end USprache.Library
