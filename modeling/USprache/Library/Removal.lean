import Mathlib.Data.List.Perm.Basic

/-!
# Removing elements until nothing is left to remove

`removeIf` is one pass over a list with a predicate that may change a state, and `removeAll` makes
passes until one of them removes nothing.
-/

namespace USprache.Library

open List

variable {α σ : Type*}

/-- The predicate is called once for each element, in order, and the elements it does not accept
are kept in order. -/
def removeIf (pred : σ → α → σ × Bool) (s : σ) : List α → σ × List α
  | [] => (s, [])
  | x :: xs =>
    let called := pred s x
    let rest := removeIf pred called.1 xs
    (rest.1, if called.2 then rest.2 else x :: rest.2)

/-- Passes until one removes nothing; `none` if the fuel does not last. -/
def removeAll (pred : σ → α → σ × Bool) : Nat → σ → List α → Option (σ × List α)
  | 0, _, _ => none
  | fuel + 1, s, xs =>
    let pass := removeIf pred s xs
    if pass.2.length = xs.length then some (pass.1, xs)
    else removeAll pred fuel pass.1 pass.2

/-- A call that does not accept its element leaves the state alone. -/
def QuietPredicate (pred : σ → α → σ × Bool) : Prop :=
  ∀ s x, (pred s x).2 = false → (pred s x).1 = s

/-- The elements are accepted one after another, each in the state the one before it left. -/
def RemovalRun (pred : σ → α → σ × Bool) : σ → List α → σ → Prop
  | s, [], s' => s' = s
  | s, x :: xs, s' => (pred s x).2 = true ∧ RemovalRun pred (pred s x).1 xs s'

variable {pred : σ → α → σ × Bool} {xs ys : List α}

theorem RemovalRun.append {s s1 s2 : σ} (h : RemovalRun pred s xs s1)
    (h' : RemovalRun pred s1 ys s2) : RemovalRun pred s (xs ++ ys) s2 := by
  induction xs generalizing s with
  | nil =>
    have heq : s1 = s := h
    rw [heq] at h'
    exact h'
  | cons x xs ih => exact ⟨h.1, ih h.2⟩

theorem removeIf_sublist (s : σ) (xs : List α) : (removeIf pred s xs).2.Sublist xs := by
  induction xs generalizing s with
  | nil => exact Sublist.refl _
  | cons x xs ih =>
    simp only [removeIf]
    cases (pred s x).2 with
    | true => exact (ih _).cons x
    | false => exact (ih _).cons_cons x

/-- A pass accepts what it removes, one element after another. -/
theorem removeIf_run (hqui : QuietPredicate pred) (s : σ) (xs : List α) :
    ∃ removed, (removed ++ (removeIf pred s xs).2).Perm xs ∧
      RemovalRun pred s removed (removeIf pred s xs).1 := by
  induction xs generalizing s with
  | nil => exact ⟨[], .refl _, rfl⟩
  | cons x xs ih =>
    obtain ⟨removed, hpm, hrun⟩ := ih (pred s x).1
    simp only [removeIf]
    cases hcld : (pred s x).2 with
    | true => exact ⟨x :: removed, hpm.cons x, hcld, hrun⟩
    | false =>
      rw [hqui s x hcld] at hpm hrun ⊢
      exact ⟨removed, perm_middle.trans (hpm.cons x), hrun⟩

/-- A pass that removes nothing has called the predicate in one and the same state. -/
theorem removeIf_of_length (hqui : QuietPredicate pred) (s : σ) (xs : List α)
    (h : (removeIf pred s xs).2.length = xs.length) :
    (removeIf pred s xs).1 = s ∧ ∀ x ∈ xs, (pred s x).2 = false := by
  induction xs generalizing s with
  | nil => exact ⟨rfl, nofun⟩
  | cons x xs ih =>
    simp only [removeIf] at h ⊢
    cases hcld : (pred s x).2 with
    | true =>
      rw [hcld] at h
      have hsub : (removeIf pred (pred s x).1 xs).2.Sublist xs := removeIf_sublist _ _
      have hle := hsub.length_le
      simp only [if_true, length_cons] at h
      omega
    | false =>
      rw [hcld, hqui s x hcld] at h
      rw [hqui s x hcld]
      simp only [Bool.false_eq_true, if_false, length_cons, Nat.add_right_cancel_iff] at h
      obtain ⟨hs, hrs⟩ := ih s h
      refine ⟨hs, fun y hy => ?_⟩
      rcases mem_cons.1 hy with rfl | hy
      · exact hcld
      · exact hrs y hy

theorem removeAll_returns (fuel : Nat) (s : σ) (xs : List α) (h : xs.length < fuel) :
    (removeAll pred fuel s xs).isSome := by
  induction fuel generalizing s xs with
  | zero => exact absurd h (Nat.not_lt_zero _)
  | succ fuel ih =>
    rw [removeAll]
    by_cases hlen : (removeIf pred s xs).2.length = xs.length
    · rw [if_pos hlen]
      rfl
    · rw [if_neg hlen]
      have hsub : (removeIf pred s xs).2.Sublist xs := removeIf_sublist _ _
      have hle := hsub.length_le
      exact ih _ _ (by omega)

/-- What is left is in order, and the predicate accepts none of it any more. -/
theorem removeAll_settled (hqui : QuietPredicate pred) (fuel : Nat) {s s' : σ}
    (h : removeAll pred fuel s xs = some (s', ys)) :
    ys.Sublist xs ∧ ∀ y ∈ ys, (pred s' y).2 = false := by
  induction fuel generalizing s xs with
  | zero => cases h
  | succ fuel ih =>
    rw [removeAll] at h
    by_cases hlen : (removeIf pred s xs).2.length = xs.length
    · rw [if_pos hlen] at h
      cases h
      obtain ⟨hs, hno⟩ := removeIf_of_length hqui s ys hlen
      rw [hs]
      exact ⟨Sublist.refl _, hno⟩
    · rw [if_neg hlen] at h
      obtain ⟨hsub, hno⟩ := ih h
      exact ⟨hsub.trans (removeIf_sublist s xs), hno⟩

theorem removeAll_run (hqui : QuietPredicate pred) (fuel : Nat) {s s' : σ}
    (h : removeAll pred fuel s xs = some (s', ys)) :
    ∃ removed, (removed ++ ys).Perm xs ∧ RemovalRun pred s removed s' := by
  induction fuel generalizing s xs with
  | zero => cases h
  | succ fuel ih =>
    rw [removeAll] at h
    by_cases hlen : (removeIf pred s xs).2.length = xs.length
    · rw [if_pos hlen] at h
      cases h
      exact ⟨[], .refl _, (removeIf_of_length hqui s ys hlen).1⟩
    · rw [if_neg hlen] at h
      obtain ⟨first, hfst, hrunFst⟩ := removeIf_run hqui s xs
      obtain ⟨later, hlt, hrunLt⟩ := ih h
      refine ⟨first ++ later, ?_, hrunFst.append hrunLt⟩
      rw [append_assoc]
      exact (hlt.append_left first).trans hfst

end USprache.Library

/-!
## Removal by swapping with the last element

An element of a list that need not keep its order is overwritten by the last one, and the list is
cut by one.  A loop that removes elements so stays at the place, as it holds another element then.
-/

namespace USprache.Library

variable {α : Type*}

def swapRemove (list : List α) (i : Nat) : List α :=
  match list.getLast? with
  | none => []
  | some last => (list.set i last).dropLast

theorem length_swapRemove (l : List α) (i : Nat) : (swapRemove l i).length = l.length - 1 := by
  cases hla : l.getLast? with
  | none =>
    rw [List.getLast?_eq_none_iff.1 hla]
    rfl
  | some last =>
    rw [swapRemove, hla]
    simp

theorem set_append_perm {init : List α} {i : Nat} {x last : α}
    (h : init[i]? = some x) : (init ++ [last]).Perm (x :: init.set i last) := by
  obtain ⟨hlt, hx⟩ := getElem?_eq_some_iff.1 h
  rw [List.set_eq_take_append_cons_drop, if_pos hlt]
  have hsp : init = init.take i ++ x :: init.drop (i + 1) := by
    rw [← hx, List.getElem_cons_drop, List.take_append_drop]
  calc (init ++ [last]).Perm (last :: init) := List.perm_append_singleton last init
    _ = last :: (init.take i ++ x :: init.drop (i + 1)) := by rw [← hsp]
    _ |>.Perm (last :: x :: (init.take i ++ init.drop (i + 1))) :=
      .cons last List.perm_middle
    _ |>.Perm (x :: last :: (init.take i ++ init.drop (i + 1))) := .swap _ _ _
    _ |>.Perm (x :: (init.take i ++ last :: init.drop (i + 1))) :=
      .cons x List.perm_middle.symm

theorem swapRemove_perm {l : List α} {i : Nat} {x : α} (h : l[i]? = some x) :
    l.Perm (x :: swapRemove l i) := by
  cases hla : l.getLast? with
  | none =>
    rw [List.getLast?_eq_none_iff.1 hla] at h
    simp at h
  | some last =>
    obtain ⟨init, rfl⟩ := List.getLast?_eq_some_iff.1 hla
    rw [swapRemove, hla]
    simp only
    rcases Nat.lt_or_ge i init.length with hlt | hge
    · rw [List.getElem?_append_left hlt] at h
      rw [List.set_append_left _ _ hlt, List.dropLast_concat]
      exact set_append_perm h
    · rw [List.getElem?_append_right hge] at h
      have hz : i - init.length = 0 := by
        have hless := (getElem?_eq_some_iff.1 h).1
        rw [List.length_singleton] at hless
        omega
      rw [hz] at h
      have hx : last = x := Option.some.inj h
      rw [List.set_append_right _ _ hge, hz, ← hx]
      simp only [List.set_cons_zero, List.dropLast_concat]
      exact List.perm_append_singleton last init

/-- The places in front of the removed element are kept. -/
theorem getElem?_swapRemove_of_lt {l : List α} {i j : Nat} (hji : j < i)
    (hi : i < l.length) : (swapRemove l i)[j]? = l[j]? := by
  cases hla : l.getLast? with
  | none =>
    rw [List.getLast?_eq_none_iff.1 hla] at hi
    simp at hi
  | some last =>
    rw [swapRemove, hla]
    show (l.set i last).dropLast[j]? = _
    rw [List.getElem?_dropLast, List.length_set, if_pos (by omega), List.getElem?_set_ne (by omega)]

/-- The loop from the place `i` on: the elements it takes out, and what is left. -/
def takeOut (p : α → Bool) : Nat → Nat → List α → List α × List α
  | 0, _, list => ([], list)
  | fuel + 1, i, list =>
    match list[i]? with
    | none => ([], list)
    | some x =>
      if p x then
        let rest := takeOut p fuel i (swapRemove list i)
        (x :: rest.1, rest.2)
      else takeOut p fuel (i + 1) list

variable (p : α → Bool)

theorem takeOut_perm : ∀ (fuel i : Nat) (l : List α),
    l.Perm ((takeOut p fuel i l).1 ++ (takeOut p fuel i l).2) := by
  intro fuel
  induction fuel with
  | zero => exact fun i l => .refl _
  | succ fuel ih =>
    intro i l
    rw [takeOut]
    cases hx : l[i]? with
    | none => exact .refl _
    | some x =>
      show l.Perm ((if p x then _ else _ : List α × List α).1 ++
        (if p x then _ else _ : List α × List α).2)
      by_cases hp : p x = true
      · rw [if_pos hp]
        exact (swapRemove_perm hx).trans ((ih i (swapRemove l i)).cons x)
      · rw [if_neg hp]
        exact ih (i + 1) l

theorem takeOut_taken : ∀ fuel i l, ∀ x ∈ (takeOut p fuel i l).1, p x = true := by
  intro fuel
  induction fuel with
  | zero =>
    intro i l x hx
    cases hx
  | succ fuel ih =>
    intro i l x
    rw [takeOut]
    cases hy : l[i]? with
    | none =>
      intro hx
      cases hx
    | some y =>
      show x ∈ (if p y then _ else _ : List α × List α).1 → _
      by_cases hp : p y = true
      · rw [if_pos hp]
        intro hx
        rcases List.mem_cons.1 hx with heq | hx
        · rw [heq]
          exact hp
        · exact ih i _ x hx
      · rw [if_neg hp]
        exact ih (i + 1) l x

/-- With fuel for the places behind `i`, nothing of the kind is left. -/
theorem takeOut_left : ∀ fuel i l, l.length ≤ i + fuel →
    (∀ j x, j < i → l[j]? = some x → p x = false) →
    ∀ x ∈ (takeOut p fuel i l).2, p x = false := by
  intro fuel
  induction fuel with
  | zero =>
    intro i l hlen hb x hx
    obtain ⟨j, hj⟩ := List.mem_iff_getElem?.1 hx
    have hlt := (getElem?_eq_some_iff.1 hj).1
    exact hb j x (Nat.lt_of_lt_of_le hlt hlen) hj
  | succ fuel ih =>
    intro i l hlen hb x
    rw [takeOut]
    cases hy : l[i]? with
    | none =>
      intro hx
      obtain ⟨j, hj⟩ := List.mem_iff_getElem?.1 hx
      have hlt := (getElem?_eq_some_iff.1 hj).1
      have hle := List.getElem?_eq_none_iff.1 hy
      exact hb j x (Nat.lt_of_lt_of_le hlt hle) hj
    | some y =>
      have hi := (getElem?_eq_some_iff.1 hy).1
      show x ∈ (if p y then _ else _ : List α × List α).2 → _
      by_cases hp : p y = true
      · rw [if_pos hp]
        apply ih i (swapRemove l i)
        · rw [length_swapRemove]
          omega
        · intro j z hj hz
          rw [getElem?_swapRemove_of_lt hj hi] at hz
          exact hb j z hj hz
      · rw [if_neg hp]
        apply ih (i + 1) l (by omega)
        intro j z hj hz
        by_cases heq : j = i
        · rw [heq, hy] at hz
          rw [← Option.some.inj hz]
          exact Bool.eq_false_iff.2 hp
        · exact hb j z (by omega) hz

/-- The loop over the whole list leaves exactly what is not of the kind. -/
theorem mem_takeOut_left (l : List α) (x : α) :
    x ∈ (takeOut p l.length 0 l).2 ↔ x ∈ l ∧ p x = false := by
  have hpm := takeOut_perm p l.length 0 l
  constructor
  · intro hx
    refine ⟨hpm.mem_iff.2 (List.mem_append_right _ hx), ?_⟩
    exact takeOut_left p l.length 0 l (by omega) (fun j _ hj => absurd hj (Nat.not_lt_zero j)) x hx
  · rintro ⟨hx, hp⟩
    rcases List.mem_append.1 (hpm.mem_iff.1 hx) with hx | hx
    · rw [takeOut_taken p _ _ _ x hx] at hp
      cases hp
    · exact hx

end USprache.Library
