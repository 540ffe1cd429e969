import USprache.Ustlib.Sort

/-!
# Binary search

The searches of `ust::binary_search` halve a part of the range that contains the border between
the elements on the two sides of the key.
-/

namespace USprache.Ustlib.BinarySearch

open Library List Option Nat Bool

variable {α : Type} (comp : α → α → Bool) (size : Nat) (r : Nat → α) (el : α)

/-- The loop of both searches.  `before` says that the border is behind an element. -/
def search (before : α → Bool) (start stop : Nat) : Option Nat :=
  if h : start < stop then do
    if before (← readAt size r (start + (stop - start) / 2)) then
      search before (start + (stop - start) / 2 + 1) stop
    else search before start (start + (stop - start) / 2)
  else some start
termination_by stop - start

def firstGreater : Option Nat := search size r (fun x => !comp el x) 0 size

def firstGreaterOrEqual : Option Nat := search size r (fun x => comp x el) 0 size

def equalRange : Option (Nat × Nat) := do
  let g ← firstGreater comp size r el
  -- `subrange_end` halts behind the end of the range.
  if g ≤ size then some (← firstGreaterOrEqual comp g r el, g) else none

def isPresent : Option Bool := do
  let pos ← firstGreaterOrEqual comp size r el
  if pos < size then some (!comp el (← readAt size r pos)) else some false

variable {comp size r el} {before : α → Bool}

variable (size r before) in
theorem search_returns (k : Nat) : ∀ s stop, stop - s = k → s ≤ stop → stop ≤ size → ∃ pos,
    search size r before s stop = some pos ∧ s ≤ pos ∧ pos ≤ stop ∧
    ((∀ i j, i < j → j < size → before (r j) = true → before (r i) = true) →
      (∀ i, i < s → before (r i) = true) →
      (∀ i, stop ≤ i → i < size → before (r i) = false) →
      (∀ i, i < pos → before (r i) = true) ∧ ∀ i, pos ≤ i → i < size → before (r i) = false) := by
  induction k using Nat.strongRecOn with
  | ind k ih =>
    intro s stop hk hle hsz
    rw [search]
    by_cases h : s < stop
    · have hmid : s + (stop - s) / 2 < size := by omega
      rw [dif_pos h, readAt_eq hmid]
      simp only [bind_eq_bind, bind_some]
      cases hb : before (r (s + (stop - s) / 2)) with
      | true =>
        obtain ⟨pos, heq, hge, hle', hsp⟩ :=
          ih (stop - (s + (stop - s) / 2 + 1)) (by omega) _ stop rfl (by omega) hsz
        refine ⟨pos, by rw [if_pos rfl, heq], by omega, hle', fun hmono hl hr => hsp hmono ?_ hr⟩
        intro i hi
        rcases Nat.lt_succ_iff_lt_or_eq.1 hi with hi | rfl
        · exact hmono i _ hi hmid hb
        · exact hb
      | false =>
        obtain ⟨pos, heq, hge, hle', hsp⟩ :=
          ih (s + (stop - s) / 2 - s) (by omega) s _ rfl (by omega) (by omega)
        refine ⟨pos, by rw [if_neg Bool.false_ne_true, heq], hge, by omega,
          fun hmono hl hr => hsp hmono hl fun i hge hi => ?_⟩
        rcases Nat.eq_or_lt_of_le hge with rfl | hlt
        · exact hb
        · exact eq_false_iff.2 fun ht => eq_false_iff.1 hb (hmono _ i hlt hi ht)
    · obtain rfl : s = stop := by omega
      exact ⟨s, dif_neg h, Nat.le_refl _, Nat.le_refl _, fun _ hl hr => ⟨hl, hr⟩⟩

theorem countP_border {p : Nat → Bool} {pos n : Nat} (hle : pos ≤ n) (hl : ∀ i, i < pos → p i = true)
    (hr : ∀ i, pos ≤ i → i < n → p i = false) : (range n).countP p = pos := by
  obtain ⟨k, rfl⟩ := Nat.exists_eq_add_of_le hle
  rw [range_add, countP_append, countP_eq_length.2 fun i hi => hl i (mem_range.1 hi),
    length_range, countP_eq_zero.2, Nat.add_zero]
  intro i hi
  obtain ⟨j, hj, rfl⟩ := mem_map.1 hi
  exact eq_false_iff.1 (hr (pos + j) (le_add_right _ _) (Nat.add_lt_add_left (mem_range.1 hj) _))

theorem notGreater_mono [IsStrictWeakOrder α fun a b => comp a b] (hso : SortedOn comp 0 size r)
    (i j : Nat) (hij : i < j) (hj : j < size) (h : (!comp el (r j)) = true) :
    (!comp el (r i)) = true := by
  rw [not_eq_true'] at h ⊢
  exact not_less_trans h (hso i j (zero_le i) hij hj)

theorem less_mono [IsStrictWeakOrder α fun a b => comp a b] (hso : SortedOn comp 0 size r)
    (i j : Nat) (hij : i < j) (hj : j < size) (h : comp (r j) el = true) : comp (r i) el = true :=
  (less_or_less h).resolve_left (eq_false_iff.1 (hso i j (zero_le i) hij hj))

/-- Every search ends inside the range, and in a sorted range at the border it looks for. -/
theorem binarySearch_exact (comp : α → α → Bool) (size : Nat) (r : Nat → α) (el : α) :
    ∃ g ge first last present, firstGreater comp size r el = some g ∧
      firstGreaterOrEqual comp size r el = some ge ∧
      equalRange comp size r el = some (first, last) ∧ isPresent comp size r el = some present ∧
      g ≤ size ∧ ge ≤ size ∧ first ≤ last ∧ last ≤ size ∧
      (IsStrictWeakOrder α (fun a b => comp a b) →
        (∀ i j, i < j → j < size → comp (r j) (r i) = false) →
        g = (range size).countP (fun i => !comp el (r i)) ∧
        ge = (range size).countP (fun i => comp (r i) el) ∧
        (∀ i, i < size → (first ≤ i ∧ i < last ↔ comp el (r i) = false ∧ comp (r i) el = false)) ∧
        (present = true ↔ ∃ i, i < size ∧ comp el (r i) = false ∧ comp (r i) el = false)) := by
  obtain ⟨g, hg, -, hgle, hgsp⟩ := search_returns size r (fun x => !comp el x) size 0 size
    (Nat.sub_zero _) (zero_le _) (Nat.le_refl _)
  obtain ⟨ge, hge, -, hgele, hgesp⟩ := search_returns size r (comp · el) size 0 size
    (Nat.sub_zero _) (zero_le _) (Nat.le_refl _)
  obtain ⟨e, he, -, hele, hesp⟩ := search_returns g r (comp · el) g 0 g
    (Nat.sub_zero _) (zero_le _) (Nat.le_refl _)
  have hrange : equalRange comp size r el = some (e, g) := by
    rw [equalRange, firstGreater, hg]
    simp only [bind_eq_bind, bind_some]
    rw [if_pos hgle, firstGreaterOrEqual, he]
    rfl
  have hpres : isPresent comp size r el = some (decide (ge < size) && !comp el (r ge)) := by
    rw [isPresent, firstGreaterOrEqual, hge]
    simp only [bind_eq_bind, bind_some]
    by_cases h : ge < size
    · rw [if_pos h, readAt_eq h, decide_eq_true h]
      rfl
    · rw [if_neg h, decide_eq_false h]
      rfl
  refine ⟨g, ge, e, g, _, hg, hge, hrange, hpres, hgle, hgele, hele, hgle, fun ho hso => ?_⟩
  have hso' : SortedOn comp 0 size r := fun i j _ => hso i j
  obtain ⟨hgl, hgr⟩ := hgsp (notGreater_mono hso') (by omega) (by omega)
  obtain ⟨hgel, hger⟩ := hgesp (less_mono hso') (by omega) (by omega)
  obtain ⟨hel, her⟩ := hesp (fun i j hij hj => less_mono hso' i j hij (by omega)) (by omega) (by omega)
  simp only [not_eq_true', not_eq_false'] at hgl hgr
  refine ⟨(countP_border hgle (fun i hi => by rw [hgl i hi]; rfl)
    fun i hp hi => by rw [hgr i hp hi]; rfl).symm, (countP_border hgele hgel hger).symm,
    fun i hi => ⟨fun h => ⟨hgl i h.2, her i h.1 h.2⟩, fun h => ⟨?_, ?_⟩⟩, ?_⟩
  · by_contra hn
    exact eq_false_iff.1 h.2 (hel i (by omega))
  · by_contra hn
    exact eq_false_iff.1 h.1 (hgr i (by omega) hi)
  · rw [and_eq_true, decide_eq_true_eq, not_eq_true']
    constructor
    · exact fun h => ⟨ge, h.1, h.2, hger ge (Nat.le_refl _) h.1⟩
    · rintro ⟨i, hi, heq⟩
      have hgi : ge ≤ i := by
        by_contra hn
        exact eq_false_iff.1 heq.2 (hgel i (by omega))
      refine ⟨by omega, ?_⟩
      -- No element before an equal one is greater than the key.
      rcases Nat.eq_or_lt_of_le hgi with rfl | hlt
      · exact heq.1
      · exact not_less_trans heq.1 (hso ge i hlt hi)

/-- In a range that `do_sort` has sorted the searches find how many elements it has that are less
than the key and that are not greater. -/
theorem search_doSort (comp : α → α → Bool) [ho : IsStrictWeakOrder α fun a b => comp a b] (size : Nat)
    (r : Nat → α) (el : α) : ∃ m, Sort.doSort comp size (size + 1) r 0 size = some m ∧
    firstGreaterOrEqual comp size m el = some ((range size).countP fun i => comp (r i) el) ∧
    firstGreater comp size m el = some ((range size).countP fun i => !comp el (r i)) := by
  obtain ⟨m, hsort, hre, hso⟩ := Sort.doSort_spec comp (size + 1) r 0 size (by omega) (Nat.le_refl _)
  have hborder : ∀ before : α → Bool,
      (∀ i j, i < j → j < size → before (m j) = true → before (m i) = true) →
      search size m before 0 size = some ((range size).countP fun i => before (r i)) := by
    intro before hmono
    obtain ⟨pos, heq, -, hle, hsp⟩ :=
      search_returns size m before size 0 size rfl (zero_le _) (Nat.le_refl _)
    obtain ⟨hl, hr⟩ := hsp hmono (by omega) (by omega)
    have hcount := hre.perm.countP_eq before
    rw [countP_map, countP_map] at hcount
    rw [heq, ← countP_border hle hl hr]
    exact congrArg some hcount
  exact ⟨m, hsort, hborder (comp · el) (less_mono (hso ho)),
    hborder (fun x => !comp el x) (notGreater_mono (hso ho))⟩

theorem search_doSort_reversed : ∃ m, firstGreaterOrEqual (fun a b => decide (a < b)) 3 m 2 = some 1 ∧
    Sort.doSort (fun a b => decide (a < b)) 3 4 (3 - ·) 0 3 = some m := by
  have ho : IsStrictWeakOrder Nat fun a b => decide (a < b) = true :=
    { irrefl := by simp, trans := by grind, incomp_trans := by grind }
  obtain ⟨m, hsort, hfound, -⟩ := search_doSort (fun a b => decide (a < b)) 3 (3 - ·) 2
  exact ⟨m, hfound, hsort⟩
end USprache.Ustlib.BinarySearch
