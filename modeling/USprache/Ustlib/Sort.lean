import USprache.Library.Rearrangement

/-!
# Sorting

`sort_impl::do_sort`.  It works on raw pointers into a range of `size` elements, and an access
outside of that range is a failure here.  The partition compares with the last element only,
so what it leaves holds for every comparator; the order of the result needs a weak order.
-/

namespace USprache.Ustlib.Sort

open Library List Option Function Equiv

variable {α : Type} (comp : α → α → Bool) (size : Nat) (m : Nat → α)

/-- `comp( $>(i), $>(j) )`. -/
def less (i j : Nat) : Option Bool := do
  let left ← readAt size m i
  let right ← readAt size m j
  some (comp left right)

def swap (i j : Nat) : Option (Nat → α) :=
  if i < size ∧ j < size then some (m ∘ Equiv.swap i j) else none

/-- The middle one of the first, the last and the middle element gets the last position. -/
def selectMiddle (start last : Nat) : Option (Nat → α) :=
  if last + 1 - start ≥ 8 then do
    let middle := start + (last + 1 - start) / 2
    let fl ← less comp size m start last
    let lm ← less comp size m last middle
    let fm ← less comp size m start middle
    if (fm && !lm) || (!fm && lm) then swap size m last middle
    else if (fl && !fm) || (!fl && fm) then swap size m last start
    else some m
  else some m

/-- The loop that places elements at the left or the right part.  Each turn brings `lo` and `hi`
closer to each other. -/
def placeElements : Nat → (Nat → α) → Nat → Nat → Nat → Option (Nat × (Nat → α))
  | 0, _, _, _, _ => none
  | fuel + 1, m, last, lo, hi => do
    if ← less comp size m lo last then
      if lo + 1 = hi then some (hi, m) else placeElements fuel m last (lo + 1) hi
    else if lo = hi - 1 then some (hi - 1, m)
    else placeElements fuel (← swap size m lo (hi - 1)) last lo (hi - 1)

/-- The middle element goes to the border of the two parts. -/
def placeMiddle (hi last : Nat) : Option (Nat → α) :=
  if hi ≠ last then swap size m hi last else some m

/-- `hi` moves down over elements that are not less than the middle one. -/
def expandDown (m : Nat → α) (start middle : Nat) : Nat → Option Nat
  | 0 => some 0
  | hi + 1 => do
    if hi + 1 > start then
      if ← less comp size m hi middle then some (hi + 1) else expandDown m start middle hi
    else some (hi + 1)

/-- `hi1` moves up over elements that are not greater than the middle one; the number is that of
the elements left. -/
def expandUp (m : Nat → α) (middle : Nat) : Nat → Nat → Option Nat
  | 0, hi1 => some hi1
  | rest + 1, hi1 => do
    if ← less comp size m middle hi1 then some hi1 else expandUp m middle rest (hi1 + 1)

/-- The recursive call is for the smaller part, the next turn of the loop for the larger one. -/
def doSort : Nat → (Nat → α) → Nat → Nat → Option (Nat → α)
  | 0, _, _, _ => none
  | fuel + 1, m, start, stop =>
    if stop - start ≤ 1 then some m
    else if stop - start = 2 then do
      if ← less comp size m start (start + 1) then some m else swap size m start (start + 1)
    else do
      let last := stop - 1
      let m ← selectMiddle comp size m start last
      let (hi, m) ← placeElements comp size (last - start) m last start last
      let m ← placeMiddle size m hi last
      let lower ← expandDown comp size m start hi hi
      let upper ← expandUp comp size m hi (stop - (hi + 1)) (hi + 1)
      if lower - start < stop - upper then
        doSort fuel (← doSort fuel m start lower) upper stop
      else doSort fuel (← doSort fuel m upper stop) start lower

variable {comp size} {m' : Nat → α} {m} {start stop last lo hi i j : Nat}

theorem less_eq (hi : i < size) (hj : j < size) : less comp size m i j = some (comp (m i) (m j)) := by
  rw [less, readAt_eq hi, readAt_eq hj]
  rfl

theorem swap_eq (hi : i < size) (hj : j < size) : swap size m i j = some (m ∘ Equiv.swap i j) :=
  if_pos ⟨hi, hj⟩

variable (comp m) in
theorem selectMiddle_spec (hs : start < last) (hl : last < size) :
    ∃ m', selectMiddle comp size m start last = some m' ∧ Rearranged start (last + 1) m m' := by
  have hr := Rearranged.refl start (last + 1) m
  by_cases h : last + 1 - start ≥ 8
  · have hmid : start + (last + 1 - start) / 2 < last + 1 := by omega
    have hst : start < size := by omega
    have hm : start + (last + 1 - start) / 2 < size := by omega
    rw [selectMiddle, if_pos h]
    simp only [less_eq hst hl, less_eq hl hm, less_eq hst hm, bind_eq_bind, bind_some]
    split_ifs
    · exact ⟨_, swap_eq hl hm, .swap m ⟨by omega, by omega⟩ ⟨by omega, hmid⟩⟩
    · exact ⟨_, swap_eq hl hst, .swap m ⟨by omega, by omega⟩ ⟨Nat.le_refl _, by omega⟩⟩
    · exact ⟨m, rfl, hr⟩
  · exact ⟨m, if_neg h, hr⟩

/-- What the partition leaves: elements that are less than the last one, then the others. -/
structure Placed (comp : α → α → Bool) (start last hi : Nat) (m : Nat → α) : Prop where
  left : ∀ i, start ≤ i → i < hi → comp (m i) (m last) = true
  right : ∀ i, hi ≤ i → i < last → comp (m i) (m last) = false

variable (comp start) in
theorem placeElements_spec (hl : last < size) :
    ∀ fuel m lo hi, start ≤ lo → lo < hi → hi ≤ last → hi - lo ≤ fuel →
      (∀ i, start ≤ i → i < lo → comp (m i) (m last) = true) →
      (∀ i, hi ≤ i → i < last → comp (m i) (m last) = false) →
      ∃ hi' m', placeElements comp size fuel m last lo hi = some (hi', m') ∧ lo ≤ hi' ∧ hi' ≤ hi ∧
        Rearranged start last m m' ∧ Placed comp start last hi' m' := by
  intro fuel
  induction fuel with
  | zero => omega
  | succ fuel ih =>
    intro m lo hi hs hlt hle hf hleft hright
    rw [placeElements, less_eq (by omega) hl]
    simp only [bind_eq_bind, bind_some]
    have hr := Rearranged.refl start last m
    cases hc : comp (m lo) (m last) with
    | true =>
      have hleft' : ∀ i, start ≤ i → i < lo + 1 → comp (m i) (m last) = true := by
        intro i hsi hi
        rcases Nat.lt_succ_iff_lt_or_eq.1 hi with hi | rfl
        · exact hleft i hsi hi
        · exact hc
      rw [if_pos rfl]
      by_cases heq : lo + 1 = hi
      · rw [if_pos heq]
        exact ⟨hi, m, rfl, by omega, Nat.le_refl _, hr, by rwa [← heq], hright⟩
      · rw [if_neg heq]
        obtain ⟨hi', m', h, hge, hle', hre, hp⟩ :=
          ih m (lo + 1) hi (by omega) (by omega) hle (by omega) hleft' hright
        exact ⟨hi', m', h, by omega, hle', hre, hp⟩
    | false =>
      rw [if_neg Bool.false_ne_true]
      by_cases heq : lo = hi - 1
      · rw [if_pos heq]
        refine ⟨hi - 1, m, rfl, by omega, by omega, hr, by rwa [← heq], fun i hge hil => ?_⟩
        rcases Nat.lt_or_ge i hi with h | h
        · rwa [show i = lo by omega]
        · exact hright i h hil
      · rw [if_neg heq, swap_eq (by omega) (by omega), bind_some]
        -- The element that is not less moves behind all that are still to compare.
        have hst : ∀ i, i ≠ lo → i ≠ hi - 1 → (m ∘ Equiv.swap lo (hi - 1)) i = m i := fun i h h' =>
          congrArg m (swap_apply_of_ne_of_ne h h')
        have hlast := hst last (by omega) (by omega)
        obtain ⟨hi', m', h, hge, hle', hre, hp⟩ :=
          ih (m ∘ Equiv.swap lo (hi - 1)) lo (hi - 1) hs (by omega) (by omega) (by omega)
            (fun i hsi hil => by
              rw [hlast, hst i (by omega) (by omega)]
              exact hleft i hsi hil)
            (fun i hge hil => by
              rw [hlast]
              by_cases hk : i = hi - 1
              · rw [hk, comp_apply, swap_apply_right, hc]
              · rw [hst i (by omega) hk]
                exact hright i (by omega) hil)
        exact ⟨hi', m', h, hge, by omega,
          (Rearranged.swap m ⟨hs, by omega⟩ ⟨by omega, by omega⟩).trans hre, hp⟩

variable (comp m start) in
theorem expandDown_spec (hm : j < size) :
    ∀ hi, start ≤ hi → hi < size → ∃ lower, expandDown comp size m start j hi = some lower ∧
      start ≤ lower ∧ lower ≤ hi ∧ ∀ i, lower ≤ i → i < hi → comp (m i) (m j) = false := by
  intro hi
  induction hi with
  | zero => exact fun hs _ => ⟨0, rfl, hs, Nat.le_refl _, by omega⟩
  | succ hi ih =>
    intro hs hlt
    rw [expandDown]
    by_cases h : hi + 1 > start
    · rw [if_pos h, less_eq (by omega) hm]
      simp only [bind_eq_bind, bind_some]
      cases hc : comp (m hi) (m j) with
      | true => exact ⟨hi + 1, if_pos rfl, by omega, Nat.le_refl _, by omega⟩
      | false =>
        obtain ⟨lower, heq, hge, hle, hall⟩ := ih (by omega) (by omega)
        refine ⟨lower, by rw [if_neg Bool.false_ne_true, heq], hge, by omega, fun i hl hi => ?_⟩
        rcases Nat.lt_succ_iff_lt_or_eq.1 hi with hi | rfl
        · exact hall i hl hi
        · exact hc
    · exact ⟨hi + 1, if_neg h, hs, Nat.le_refl _, by omega⟩

variable (comp m) in
theorem expandUp_spec (hm : j < size) :
    ∀ r hi1, hi1 + r ≤ size → ∃ upper, expandUp comp size m j r hi1 = some upper ∧
      hi1 ≤ upper ∧ upper ≤ hi1 + r ∧ ∀ i, hi1 ≤ i → i < upper → comp (m j) (m i) = false := by
  intro r
  induction r with
  | zero => exact fun hi1 _ => ⟨hi1, rfl, Nat.le_refl _, Nat.le_refl _, by omega⟩
  | succ r ih =>
    intro hi1 hle
    rw [expandUp, less_eq hm (by omega)]
    simp only [bind_eq_bind, bind_some]
    cases hc : comp (m j) (m hi1) with
    | true => exact ⟨hi1, if_pos rfl, Nat.le_refl _, by omega, by omega⟩
    | false =>
      obtain ⟨upper, heq, hge, hle, hall⟩ := ih (hi1 + 1) (by omega)
      refine ⟨upper, by rw [if_neg Bool.false_ne_true, heq], by omega, by omega, fun i hl hi => ?_⟩
      rcases Nat.eq_or_lt_of_le hl with rfl | hl
      · exact hc
      · exact hall i hl hi

/-- The parts around the middle element before the recursive calls. -/
structure Split (comp : α → α → Bool) (start stop lower mid upper : Nat) (m : Nat → α) : Prop where
  bounds : start ≤ lower ∧ lower ≤ mid ∧ mid < upper ∧ upper ≤ stop
  left : ∀ i, start ≤ i → i < lower → comp (m i) (m mid) = true
  equal : ∀ i, lower ≤ i → i < upper → i ≠ mid → comp (m mid) (m i) = false
  right : ∀ i, lower ≤ i → i < stop → i ≠ mid → comp (m i) (m mid) = false

variable {lower mid upper : Nat} (hs : Split comp start stop lower mid upper m)

include hs

theorem Split.sortLeft
    (h : Rearranged start lower m m') : Split comp start stop lower mid upper m' := by
  have hb := hs.bounds
  have hkp : ∀ i, lower ≤ i → m' i = m i := fun i hi => h.outside (by omega)
  refine ⟨hb, fun i hst hi => ?_, fun i hlo hi hne => ?_, fun i hlo hi hne => ?_⟩
  · rw [hkp mid (by omega)]
    exact h.forall_inside (P := fun x => comp x (m mid) = true) hs.left i hst hi
  · rw [hkp mid hb.2.1, hkp i hlo]
    exact hs.equal i hlo hi hne
  · rw [hkp mid hb.2.1, hkp i hlo]
    exact hs.right i hlo hi hne

theorem Split.sortRight
    (h : Rearranged upper stop m m') : Split comp start stop lower mid upper m' := by
  have hb := hs.bounds
  have hkp : ∀ i, i < upper → m' i = m i := fun i hi => h.outside (by omega)
  have hmid := hkp mid hb.2.2.1
  refine ⟨hb, fun i hst hi => ?_, fun i hlo hi hne => ?_, fun i hlo hi hne => ?_⟩ <;> rw [hmid]
  · rw [hkp i (by omega)]
    exact hs.left i hst hi
  · rw [hkp i hi]
    exact hs.equal i hlo hi hne
  · by_cases hup : i < upper
    · rw [hkp i hup]
      exact hs.right i hlo hi hne
    · have hr : ∀ j, upper ≤ j → j < stop → comp (m j) (m mid) = false := fun j hj hjs =>
        hs.right j (by omega) hjs (by omega)
      exact h.forall_inside (P := fun x => comp x (m mid) = false) hr i (by omega) hi

theorem Split.sorted [ho : IsStrictWeakOrder α fun a b => comp a b] (hl : SortedOn comp start lower m)
    (hr : SortedOn comp upper stop m) : SortedOn comp start stop m := by
  intro i j hi hij hj
  have hirr : comp (m mid) (m mid) = false := Bool.eq_false_iff.2 (ho.irrefl _)
  by_cases hjl : j < lower
  · exact hl i j hi hij hjl
  by_cases hup : upper ≤ i
  · exact hr i j hup hij hj
  -- The middle element is between the two.
  have hjm : comp (m j) (m mid) = false := by
    by_cases hne : j = mid
    · rw [hne, hirr]
    · exact hs.right j (by omega) hj hne
  have hmi : comp (m mid) (m i) = false := by
    by_cases hne : i = mid
    · rw [hne, hirr]
    by_cases hil : i < lower
    · exact not_less_of_less (hs.left i hi hil)
    · exact hs.equal i (by omega) (by omega) hne
  exact not_less_trans hjm hmi

omit hs

variable (comp m) in
/-- One turn of the loop before its recursive calls. -/
theorem doSort_succ (fuel : Nat) (hlen : 3 ≤ stop - start) (hle : stop ≤ size) :
    ∃ lower mid upper m', Rearranged start stop m m' ∧ Split comp start stop lower mid upper m' ∧
      doSort comp size (fuel + 1) m start stop =
        if lower - start < stop - upper then
          (doSort comp size fuel m' start lower).bind (doSort comp size fuel · upper stop)
        else (doSort comp size fuel m' upper stop).bind (doSort comp size fuel · start lower) := by
  obtain ⟨last, rfl⟩ : ∃ last, stop = last + 1 := ⟨stop - 1, by omega⟩
  obtain ⟨m1, hsel, hre1⟩ := selectMiddle_spec comp m
    (show start < last by omega) (show last < size by omega)
  obtain ⟨hi, m2, hpl, hge, hile, hre2, hp⟩ := placeElements_spec comp start
    (show last < size by omega) (last - start) m1 start last (Nat.le_refl _) (by omega)
    (Nat.le_refl _) (Nat.le_refl _) (by omega) (by omega)
  obtain ⟨m3, hsw, hm3⟩ : ∃ m3, placeMiddle size m2 hi last = some m3 ∧
      m3 = m2 ∘ Equiv.swap hi last := by
    by_cases h : hi = last
    · refine ⟨m2, if_neg (not_not.2 h), ?_⟩
      rw [h, Equiv.swap_self]
      rfl
    · exact ⟨_, (if_pos h).trans (swap_eq (by omega) (by omega)), rfl⟩
  have hmid : m3 hi = m2 last := by rw [hm3, comp_apply, swap_apply_left]
  have hleft : ∀ i, start ≤ i → i < hi → comp (m3 i) (m3 hi) = true := by
    intro i hst hlt
    rw [hmid, hm3, comp_apply, swap_apply_of_ne_of_ne (by omega) (by omega)]
    exact hp.left i hst hlt
  have hright : ∀ i, hi < i → i < last + 1 → comp (m3 i) (m3 hi) = false := by
    intro i hlt hil
    rw [hmid, hm3, comp_apply]
    by_cases h : i = last
    · rw [h, swap_apply_right]
      exact hp.right hi (Nat.le_refl _) (by omega)
    · rw [swap_apply_of_ne_of_ne (by omega) h]
      exact hp.right i (by omega) (by omega)
  obtain ⟨lower, hlow, hlos, hloh, hdown⟩ := expandDown_spec comp m3 start
    (show hi < size by omega) hi hge (by omega)
  obtain ⟨upper, hup, hupg, hupl, hexp⟩ := expandUp_spec comp m3
    (show hi < size by omega) (last + 1 - (hi + 1)) (hi + 1) (by omega)
  refine ⟨lower, hi, upper, m3, ?_, ⟨by omega, fun i hst hlt => hleft i hst (by omega), ?_, ?_⟩, ?_⟩
  · rw [hm3]
    exact (hre1.trans (hre2.mono (Nat.le_refl _) (Nat.le_succ _))).trans
      (.swap m2 ⟨hge, by omega⟩ ⟨by omega, by omega⟩)
  · intro i hlo hil hne
    rcases Nat.lt_or_gt_of_ne hne with h | h
    · exact absurd (hleft i (by omega) h) (Bool.eq_false_iff.1 (hdown i hlo h))
    · exact hexp i h hil
  · intro i hlo hil hne
    rcases Nat.lt_or_gt_of_ne hne with h | h
    · exact hdown i hlo h
    · exact hright i h hil
  · rw [doSort, if_neg (by omega), if_neg (by omega)]
    simp only [Nat.add_sub_cancel, hsel, hpl, hsw, hlow, hup, bind_eq_bind, bind_some]

variable (comp) in
/-- For every comparator the sort ends inside the range and only moves elements; a weak order
makes the result sorted. -/
theorem doSort_spec : ∀ fuel m start stop, stop - start < fuel → stop ≤ size →
    ∃ m', doSort comp size fuel m start stop = some m' ∧ Rearranged start stop m m' ∧
      (IsStrictWeakOrder α (fun a b => comp a b) → SortedOn comp start stop m') := by
  intro fuel
  induction fuel with
  | zero => omega
  | succ fuel ih =>
    intro m start stop hf hle
    have hr := Rearranged.refl start stop m
    by_cases hone : stop - start ≤ 1
    · exact ⟨m, if_pos hone, hr, fun _ i j => by omega⟩
    by_cases htwo : stop - start = 2
    · obtain rfl : stop = start + 1 + 1 := by omega
      have hst : start < size := by omega
      have hnx : start + 1 < size := by omega
      have hij : ∀ i j, start ≤ i → i < j → j < start + 1 + 1 → i = start ∧ j = start + 1 := by omega
      rw [doSort, if_neg hone, if_pos htwo, less_eq hst hnx]
      cases hc : comp (m start) (m (start + 1)) with
      | true =>
        refine ⟨m, rfl, hr, fun _ i j hi hlt hj => ?_⟩
        obtain ⟨rfl, rfl⟩ := hij i j hi hlt hj
        exact not_less_of_less hc
      | false =>
        refine ⟨_, swap_eq hst hnx, .swap m ⟨by omega, by omega⟩ ⟨by omega, by omega⟩, fun _ i j hi hlt hj => ?_⟩
        obtain ⟨rfl, rfl⟩ := hij i j hi hlt hj
        rwa [comp_apply, comp_apply, swap_apply_left, swap_apply_right]
    · obtain ⟨lower, mid, upper, m1, hre, hsp, heq⟩ :=
        doSort_succ comp m fuel (show 3 ≤ stop - start by omega) hle
      have hb := hsp.bounds
      rw [heq]
      split_ifs
      · obtain ⟨m2, hs2, hre2, hso2⟩ := ih m1 start lower (by omega) (by omega)
        obtain ⟨m3, hs3, hre3, hso3⟩ := ih m2 upper stop (by omega) hle
        refine ⟨m3, by rw [hs2, bind_some, hs3], (hre.trans (hre2.mono (Nat.le_refl _) (by omega))).trans
          (hre3.mono (by omega) (Nat.le_refl _)), fun ho => ?_⟩
        exact ((hsp.sortLeft hre2).sortRight hre3).sorted
          ((hso2 ho).congr fun i _ hi => hre3.outside (by omega)) (hso3 ho)
      · obtain ⟨m2, hs2, hre2, hso2⟩ := ih m1 upper stop (by omega) hle
        obtain ⟨m3, hs3, hre3, hso3⟩ := ih m2 start lower (by omega) (by omega)
        refine ⟨m3, by rw [hs2, bind_some, hs3], (hre.trans (hre2.mono (by omega) (Nat.le_refl _))).trans
          (hre3.mono (Nat.le_refl _) (by omega)), fun ho => ?_⟩
        exact ((hsp.sortRight hre2).sortLeft hre3).sorted (hso3 ho)
          ((hso2 ho).congr fun i hi _ => hre3.outside (by omega))

/-- `do_sort` of a range of `size` elements. -/
theorem doSort_sorts (comp : α → α → Bool) (size : Nat) (m : Nat → α) :
    ∃ m', doSort comp size (size + 1) m 0 size = some m' ∧
      (map m' (range size)).Perm (map m (range size)) ∧
      (IsStrictWeakOrder α (fun a b => comp a b) →
        ∀ i j, i < j → j < size → comp (m' j) (m' i) = false) := by
  obtain ⟨m', heq, hre, hso⟩ := doSort_spec comp (size + 1) m 0 size (by omega) (Nat.le_refl _)
  exact ⟨m', heq, hre.perm, fun ho i j => hso ho i j (Nat.zero_le i)⟩

end USprache.Ustlib.Sort
