import USprache.Library.Rearrangement

/-!
# Binary heaps

The operations of `ust::binary_heap` move elements around a hole: an element is held aside and
the range has a position whose bytes are a copy of another one.  `Holed` says what is in order
then.  The memory with the held element in the hole is a rearrangement of the input at every
point, whatever the comparator says.
-/

namespace USprache.Ustlib.BinaryHeap

open Library List Function Option Nat

variable {α : Type} (comp : α → α → Bool) (size : Nat)

/-- The loop that moves parents down until they are not less than the held element, which is read
through `element`. -/
def propagateUp (element : (Nat → α) → Option α) (m : Nat → α) (index : Nat) :
    Option (Nat × (Nat → α)) :=
  if h : index > 0 then do
    let parent ← readAt size m ((index - 1) / 2)
    if comp parent (← element m) then
      propagateUp element (← writeAt size m index parent) ((index - 1) / 2)
    else some (index, m)
  else some (index, m)

def pushHeapUnchecked (m : Nat → α) : Option (Nat → α) := do
  let index := size - 1
  let parent ← readAt size m ((index - 1) / 2)
  let newElement ← readAt size m index
  if comp parent newElement then
    let (index, m) ←
      propagateUp comp size (fun _ => some newElement) (← writeAt size m index parent) ((index - 1) / 2)
    writeAt size m index newElement
  else some m

def pushHeap (m : Nat → α) : Option (Nat → α) :=
  if size ≤ 1 then some m else pushHeapUnchecked comp size m

def propagateDown (last : Nat) (m : Nat → α) (index : Nat) : Option (Nat × (Nat → α)) :=
  if h0 : index * 2 + 1 ≥ last then some (index, m)
  else if h1 : index * 2 + 2 ≥ last then do
    -- A single child.
    let child0 ← readAt size m (index * 2 + 1)
    some (index * 2 + 1, ← writeAt size m index child0)
  else do
    let child0 ← readAt size m (index * 2 + 1)
    let child1 ← readAt size m (index * 2 + 2)
    if comp child0 child1 then propagateDown last (← writeAt size m index child1) (index * 2 + 2)
    else propagateDown last (← writeAt size m index child0) (index * 2 + 1)
termination_by last - index

/-- The last element gets into the hole, or above it. -/
def placeLast (last : Nat) (m : Nat → α) (index : Nat) : Option (Nat → α) :=
  if index ≠ last then do
    let (index, m) ← propagateUp comp size (readAt size · last) m index
    writeAt size m index (← readAt size m last)
  else some m

def popHeapUnchecked (m : Nat → α) : Option (Nat → α) := do
  let last := size - 1
  let topElement ← readAt size m 0
  let (index, m) ← propagateDown comp size last m 0
  let m ← placeLast comp size last m index
  writeAt size m last topElement

def popHeap (m : Nat → α) : Option (Nat → α) :=
  if size ≤ 1 then some m else popHeapUnchecked comp size m

/-- The loop of `make_heap` from the index `i` on. -/
def makeHeapFrom : Nat → Nat → (Nat → α) → Option (Nat → α)
  | 0, _, m => some m
  | rest + 1, i, m => do makeHeapFrom rest (i + 1) (← pushHeapUnchecked comp (i + 1) m)

def makeHeap (m : Nat → α) : Option (Nat → α) := makeHeapFrom comp (size - 1) 1 m

def popAll : Nat → (Nat → α) → Option (Nat → α)
  | 0, m => some m
  | s + 1, m => if s + 1 > 1 then do popAll s (← popHeapUnchecked comp (s + 1) m) else some m

def sort (m : Nat → α) : Option (Nat → α) := do popAll comp size (← makeHeap comp size m)

def IsHeap (n : Nat) (m : Nat → α) : Prop :=
  ∀ i, 0 < i → i < n → comp (m ((i - 1) / 2)) (m i) = false

structure Holed (n hole : Nat) (m : Nat → α) : Prop where
  off : ∀ i, 0 < i → i < n → i ≠ hole → (i - 1) / 2 ≠ hole → comp (m ((i - 1) / 2)) (m i) = false
  across : ∀ i, 0 < i → i < n → (i - 1) / 2 = hole → 0 < hole →
    comp (m ((hole - 1) / 2)) (m i) = false

def Below (n hole : Nat) (m : Nat → α) (x : α) : Prop :=
  ∀ i, 0 < i → i < n → (i - 1) / 2 = hole → comp x (m i) = false

variable {comp size} {m : Nat → α} {n hole index last : Nat} {x : α}

theorem IsHeap.congr {m' : Nat → α} (h : IsHeap comp n m) (heq : ∀ i, i < n → m' i = m i) :
    IsHeap comp n m' := by
  intro i hi hin
  rw [heq i hin, heq _ (by omega)]
  exact h i hi hin

theorem Holed.fill (h : Holed comp n hole m) (hbel : Below comp n hole m x)
    (hp : 0 < hole → comp (m ((hole - 1) / 2)) x = false) : IsHeap comp n (update m hole x) := by
  intro i hi hin
  by_cases hih : i = hole
  · rw [hih, update_self, update_of_ne (by omega)]
    exact hp (hih ▸ hi)
  · rw [update_of_ne hih]
    by_cases hpar : (i - 1) / 2 = hole
    · rw [hpar, update_self]
      exact hbel i hi hin hpar
    · rw [update_of_ne hpar]
      exact h.off i hi hin hih hpar

theorem Holed.up [IsStrictWeakOrder α fun a b => comp a b] (h : Holed comp n hole m)
    (hpos : 0 < hole) (hn : hole < n) (hx : comp (m ((hole - 1) / 2)) x = true) :
    Holed comp n ((hole - 1) / 2) (update m hole (m ((hole - 1) / 2))) ∧
      Below comp n ((hole - 1) / 2) (update m hole (m ((hole - 1) / 2))) x := by
  have hsib : ∀ i, 0 < i → i < n → i ≠ hole → (i - 1) / 2 = (hole - 1) / 2 →
      comp (m ((hole - 1) / 2)) (m i) = false := by
    intro i hi hin hne hpar
    have := h.off i hi hin hne (by omega)
    rwa [hpar] at this
  refine ⟨⟨fun i hi hin hne hpar => ?_, fun i hi hin hpar hpp => ?_⟩, fun i hi hin hpar => ?_⟩
  · have hih : i ≠ hole := fun hih => hpar (by rw [hih])
    rw [update_of_ne hih]
    by_cases hp : (i - 1) / 2 = hole
    · rw [hp, update_self]
      exact h.across i hi hin hp hpos
    · rw [update_of_ne hp]
      exact h.off i hi hin hih hp
  · have hup := h.off ((hole - 1) / 2) hpp (by omega) (by omega) (by omega)
    rw [update_of_ne (by omega)]
    by_cases hih : i = hole
    · rwa [hih, update_self]
    · rw [update_of_ne hih]
      exact not_less_trans hup (hsib i hi hin hih hpar)
  · by_cases hih : i = hole
    · rw [hih, update_self]
      exact not_less_of_less hx
    · rw [update_of_ne hih]
      exact not_less_trans (not_less_of_less hx) (hsib i hi hin hih hpar)

/-- A child of the hole that is not less than the other one moves up into it. -/
theorem Holed.down {ch : Nat} (h : Holed comp n hole m) (hpos : 0 < ch) (hn : ch < n)
    (hpar : (ch - 1) / 2 = hole)
    (hsib : ∀ i, 0 < i → i < n → (i - 1) / 2 = hole → i ≠ ch → comp (m ch) (m i) = false) :
    Holed comp n ch (update m hole (m ch)) := by
  refine ⟨fun i hi hin hne hp => ?_, fun i hi hin hp _ => ?_⟩
  · by_cases hih : i = hole
    · rw [hih, update_self, update_of_ne (by omega)]
      exact h.across ch hpos hn hpar (by omega)
    · rw [update_of_ne hih]
      by_cases hip : (i - 1) / 2 = hole
      · rw [hip, update_self]
        exact hsib i hi hin hip hne
      · rw [update_of_ne hip]
        exact h.off i hi hin hih hip
  · rw [hpar, update_self, update_of_ne (by omega)]
    have := h.off i hi hin (by omega) (by omega)
    rwa [hp] at this

variable (comp) in
theorem propagateUp_spec (el : (Nat → α) → Option α) (hsz : n ≤ size) (index : Nat) :
    ∀ m, index < n → (∀ m', (∀ i, index < i → m' i = m i) → el m' = some x) →
      ∃ i' m', propagateUp comp size el m index = some (i', m') ∧ i' ≤ index ∧
        (∀ i, index < i → m' i = m i) ∧
        Rearranged 0 n (update m index x) (update m' i' x) ∧
        (IsStrictWeakOrder α (fun a b => comp a b) → Holed comp n index m → Below comp n index m x →
          IsHeap comp n (update m' i' x)) := by
  induction index using Nat.strongRecOn with
  | ind index ih =>
    intro m hin hel
    rw [propagateUp]
    by_cases hpos : index > 0
    · rw [dif_pos hpos, readAt_eq (by omega), hel m fun _ _ => rfl]
      simp only [bind_eq_bind, bind_some]
      cases hc : comp (m ((index - 1) / 2)) x with
      | true =>
        rw [if_pos rfl, writeAt_eq (by omega), bind_some]
        have hkp : ∀ i, index < i → update m index (m ((index - 1) / 2)) i = m i := fun i hi =>
          update_of_ne (Nat.ne_of_gt hi) _ _
        obtain ⟨i', m', heq, hle, hout, hre, hheap⟩ :=
          ih ((index - 1) / 2) (by omega) (update m index (m ((index - 1) / 2))) (by omega)
            fun m' hm' => hel m' fun i hi => (hm' i (by omega)).trans (hkp i hi)
        refine ⟨i', m', heq, by omega, fun i hi => (hout i (by omega)).trans (hkp i hi),
          (Rearranged.moveHole ⟨zero_le _, hin⟩ ⟨zero_le _, by omega⟩).trans hre,
          fun ho hh _ => ?_⟩
        obtain ⟨hup, hbel⟩ := hh.up hpos hin hc
        exact hheap ho hup hbel
      | false =>
        exact ⟨index, m, if_neg Bool.false_ne_true, Nat.le_refl _, fun _ _ => rfl, .refl _ _ _,
          fun _ hh hbel => hh.fill hbel fun _ => hc⟩
    · exact ⟨index, m, dif_neg hpos, Nat.le_refl _, fun _ _ => rfl, .refl _ _ _,
        fun _ hh hbel => hh.fill hbel fun h => absurd h hpos⟩

variable (comp) in
theorem propagateDown_spec (hsz : last ≤ size) (k : Nat) :
    ∀ m index, last - index = k → index < last →
      ∃ i' m', propagateDown comp size last m index = some (i', m') ∧ i' < last ∧
        Rearranged 0 last (update m index x) (update m' i' x) ∧
        (IsStrictWeakOrder α (fun a b => comp a b) → Holed comp last index m →
          Holed comp last i' m' ∧ last ≤ i' * 2 + 1) := by
  induction k using Nat.strongRecOn with
  | ind k ih =>
    intro m index hk hin
    -- One turn with the child that moves up.
    have hst : ∀ ch, (ch - 1) / 2 = index → 0 < ch → ch < last →
        (IsStrictWeakOrder α (fun a b => comp a b) → ∀ i, 0 < i → i < last → (i - 1) / 2 = index →
          i ≠ ch → comp (m ch) (m i) = false) →
        ∃ i' m', propagateDown comp size last (update m index (m ch)) ch = some (i', m') ∧
          i' < last ∧ Rearranged 0 last (update m index x) (update m' i' x) ∧
          (IsStrictWeakOrder α (fun a b => comp a b) → Holed comp last index m →
            Holed comp last i' m' ∧ last ≤ i' * 2 + 1) := by
      intro ch hpar hpos hlt hsib
      obtain ⟨i', m', heq, hlt', hre, hh'⟩ :=
        ih (last - ch) (by omega) (update m index (m ch)) ch rfl hlt
      exact ⟨i', m', heq, hlt',
        (Rearranged.moveHole ⟨zero_le _, hin⟩ ⟨zero_le _, hlt⟩).trans hre,
        fun ho hh => hh' ho (hh.down hpos hlt hpar (hsib ho))⟩
    rw [propagateDown]
    by_cases h0 : index * 2 + 1 ≥ last
    · exact ⟨index, m, dif_pos h0, hin, .refl _ _ _, fun _ hh => ⟨hh, h0⟩⟩
    rw [dif_neg h0]
    by_cases h1 : index * 2 + 2 ≥ last
    · rw [dif_pos h1, readAt_eq (by omega)]
      simp only [bind_eq_bind, bind_some]
      rw [writeAt_eq (by omega)]
      refine ⟨_, _, rfl, by omega, .moveHole ⟨zero_le _, hin⟩ ⟨zero_le _, by omega⟩,
        fun _ hh => ⟨hh.down (by omega) (by omega) (by omega) (by omega), by omega⟩⟩
    · rw [dif_neg h1, readAt_eq (by omega), readAt_eq (by omega)]
      simp only [bind_eq_bind, bind_some]
      rw [writeAt_eq (by omega), writeAt_eq (by omega), bind_some, bind_some]
      cases hc : comp (m (index * 2 + 1)) (m (index * 2 + 2)) with
      | true =>
        rw [if_pos rfl]
        refine hst (index * 2 + 2) (by omega) (by omega) (by omega) fun _ i hi _ hpar hne => ?_
        obtain rfl : i = index * 2 + 1 := by omega
        exact not_less_of_less hc
      | false =>
        rw [if_neg Bool.false_ne_true]
        refine hst (index * 2 + 1) (by omega) (by omega) (by omega) fun _ i hi _ hpar hne => ?_
        obtain rfl : i = index * 2 + 2 := by omega
        exact hc

theorem IsHeap.holed (h : IsHeap comp n m) (hhole : n ≤ hole ∨ hole = 0) : Holed comp n hole m :=
  ⟨fun i hi hin _ _ => h i hi hin, fun i hi hin hpar hpos => by omega⟩

variable (comp m) in
theorem pushHeapUnchecked_spec (hsz : 2 ≤ size) :
    ∃ m', pushHeapUnchecked comp size m = some m' ∧ Rearranged 0 size m m' ∧
      (IsStrictWeakOrder α (fun a b => comp a b) → IsHeap comp (size - 1) m → IsHeap comp size m') := by
  have hlast : size - 1 < size := by omega
  have hpar : (size - 1 - 1) / 2 < size := by omega
  rw [pushHeapUnchecked, readAt_eq hpar, readAt_eq hlast]
  simp only [bind_eq_bind, bind_some]
  -- The last position is a hole that holds the new element.
  have hhole : IsHeap comp (size - 1) m → Holed comp size (size - 1) m := fun h =>
    ⟨fun i hi hin hne _ => h i hi (by omega), fun i hi hin hp _ => by omega⟩
  have hbel : Below comp size (size - 1) m (m (size - 1)) := fun i hi hin hp => by omega
  cases hc : comp (m ((size - 1 - 1) / 2)) (m (size - 1)) with
  | true =>
    obtain ⟨index', m', heq, hle, -, hre, hheap⟩ := propagateUp_spec comp (x := m (size - 1))
      (fun _ => some (m (size - 1))) (Nat.le_refl size) ((size - 1 - 1) / 2)
      (update m (size - 1) (m ((size - 1 - 1) / 2))) hpar (fun _ _ => rfl)
    rw [if_pos rfl, writeAt_eq hlast, bind_some, heq, bind_some]
    have hmv := Rearranged.moveHole (f := m) (x := m (size - 1)) (s := 0) ⟨zero_le _, hlast⟩
      ⟨zero_le _, hpar⟩
    rw [update_eq_self] at hmv
    refine ⟨_, writeAt_eq (by omega), hmv.trans hre, fun ho h => ?_⟩
    obtain ⟨hup, hbel'⟩ := (hhole h).up (by omega) hlast hc
    exact hheap ho hup hbel'
  | false =>
    refine ⟨m, if_neg Bool.false_ne_true, .refl _ _ _, fun _ h => ?_⟩
    have := (hhole h).fill hbel fun _ => hc
    rwa [update_eq_self] at this

variable (comp m) in
theorem popHeapUnchecked_spec (hsz : 2 ≤ size) :
    ∃ m', popHeapUnchecked comp size m = some m' ∧ Rearranged 0 size m m' ∧ m' (size - 1) = m 0 ∧
      (IsStrictWeakOrder α (fun a b => comp a b) → IsHeap comp size m → IsHeap comp (size - 1) m') := by
  obtain ⟨last, rfl⟩ : ∃ last, size = last + 1 := ⟨size - 1, by omega⟩
  rw [popHeapUnchecked, readAt_eq (succ_pos last)]
  simp only [bind_eq_bind, bind_some, Nat.add_sub_cancel]
  obtain ⟨i1, m1, heq1, hlt1, hre1, hheap1⟩ := propagateDown_spec comp (x := m 0)
    (le_succ last) last m 0 (Nat.sub_zero last) (by omega)
  have hl1 : m1 last = m last := by
    have := hre1.outside (i := last) (by omega)
    rwa [update_of_ne (by omega), update_of_ne (by omega)] at this
  obtain ⟨i2, m2, heq2, hle2, hout2, hre2, hheap2⟩ := propagateUp_spec comp (x := m last)
    (readAt (last + 1) · last) (le_succ last) i1 m1 hlt1 fun m' hm' => by
      rw [readAt_eq (lt_succ_self last), hm' last hlt1, hl1]
  have hl2 : m2 last = m last := (hout2 last hlt1).trans hl1
  have hplace : placeLast comp (last + 1) last m1 i1 = some (update m2 i2 (m last)) := by
    rw [placeLast, if_pos (by omega), heq2]
    simp only [bind_eq_bind, bind_some]
    rw [readAt_eq (lt_succ_self last), bind_some, hl2, writeAt_eq (by omega)]
  rw [heq1, bind_some, hplace, bind_some]
  refine ⟨_, writeAt_eq (lt_succ_self last), ?_, update_self _ _ _, fun ho h => ?_⟩
  · -- The top element goes from the hole to the last position, the last one into the hole.
    have htop : Rearranged 0 (last + 1) (update m 0 (m 0)) (update m1 i1 (m 0)) :=
      hre1.mono (Nat.le_refl _) (le_succ _)
    have hmv := Rearranged.moveHole (f := m1) (x := m 0) (s := 0) (e := last + 1) (i := i1) (j := last)
      ⟨zero_le _, by omega⟩ ⟨zero_le _, by omega⟩
    rw [update_eq_self] at htop
    rw [hl1] at hmv
    exact (htop.trans hmv).trans ((hre2.update_outside (by omega)).mono (Nat.le_refl _) (le_succ _))
  · obtain ⟨hh1, hno⟩ := hheap1 ho (IsHeap.holed (fun i hi hin => h i hi (by omega)) (.inr rfl))
    have hbel : Below comp last i1 m1 (m last) := fun i hi hin hp => by omega
    exact (hheap2 ho hh1 hbel).congr fun i hi => update_of_ne (by omega) _ _

theorem IsHeap.top [ho : IsStrictWeakOrder α fun a b => comp a b] (h : IsHeap comp n m) (i : Nat) :
    i < n → comp (m 0) (m i) = false := by
  induction i using Nat.strongRecOn with
  | ind i ih =>
    intro hin
    rcases Nat.eq_zero_or_pos i with rfl | hpos
    · exact Bool.eq_false_iff.2 (ho.irrefl _)
    · exact not_less_trans (ih ((i - 1) / 2) (by omega) (by omega)) (h i hpos hin)

variable (comp) in
theorem makeHeapFrom_spec (r : Nat) : ∀ i m, 0 < i → ∃ m', makeHeapFrom comp r i m = some m' ∧
    Rearranged 0 (i + r) m m' ∧
    (IsStrictWeakOrder α (fun a b => comp a b) → IsHeap comp i m → IsHeap comp (i + r) m') := by
  induction r with
  | zero => exact fun i m _ => ⟨m, rfl, .refl _ _ _, fun _ h => h⟩
  | succ r ih =>
    intro i m hi
    obtain ⟨m1, heq1, hre1, hheap1⟩ := pushHeapUnchecked_spec comp m (show 2 ≤ i + 1 by omega)
    obtain ⟨m2, heq2, hre2, hheap2⟩ := ih (i + 1) m1 (succ_pos i)
    rw [show i + (r + 1) = i + 1 + r by omega]
    refine ⟨m2, ?_, (hre1.mono (Nat.le_refl _) (by omega)).trans hre2,
      fun ho h => hheap2 ho (hheap1 ho h)⟩
    rw [makeHeapFrom, heq1]
    exact heq2

variable (comp size) in
theorem makeHeap_spec (m : Nat → α) : ∃ m', makeHeap comp size m = some m' ∧ Rearranged 0 size m m' ∧
    (IsStrictWeakOrder α (fun a b => comp a b) → IsHeap comp size m') := by
  rcases Nat.eq_zero_or_pos size with rfl | hpos
  · exact ⟨m, rfl, .refl _ _ _, fun _ i _ hi => by omega⟩
  obtain ⟨m', heq, hre, hheap⟩ := makeHeapFrom_spec comp (size - 1) 1 m Nat.one_pos
  rw [show 1 + (size - 1) = size by omega] at hre hheap
  exact ⟨m', heq, hre, fun ho => hheap ho fun i _ hi => by omega⟩

variable (comp) in
/-- The positions from `s` on hold elements that are not less than any before them. -/
theorem popAll_spec : ∀ s m, s ≤ size → ∃ m', popAll comp s m = some m' ∧ Rearranged 0 s m m' ∧
    (IsStrictWeakOrder α (fun a b => comp a b) → IsHeap comp s m → SortedOn comp 0 s m') := by
  intro s
  induction s with
  | zero => exact fun m _ => ⟨m, rfl, .refl _ _ _, fun _ _ i j => by omega⟩
  | succ s ih =>
    intro m hs
    by_cases hone : s + 1 > 1
    · obtain ⟨m1, heq1, hre1, htop, hheap1⟩ := popHeapUnchecked_spec comp m
        (show 2 ≤ s + 1 from hone)
      obtain ⟨m2, heq2, hre2, hso⟩ := ih m1 (by omega)
      have hre := hre1.trans (hre2.mono (Nat.le_refl _) (le_succ s))
      refine ⟨m2, ?_, hre, fun ho h i j hi hij hj => ?_⟩
      · rw [popAll, if_pos hone, heq1]
        exact heq2
      · rcases Nat.lt_succ_iff_lt_or_eq.1 hj with hj | rfl
        · exact hso ho (hheap1 ho h) i j hi hij hj
        · rw [hre2.outside (i := j) (by omega), show m1 j = m 0 from htop]
          exact hre.forall_inside (P := fun x => comp (m 0) x = false) (fun k _ hk => h.top k hk) i hi
            (by omega)
    · exact ⟨m, if_neg hone, .refl _ _ _, fun _ _ i j => by omega⟩

/-- The operations of a binary heap on a range of `size` elements. -/
theorem binaryHeap_operations (comp : α → α → Bool) (size : Nat) (m : Nat → α) :
    (∃ m', pushHeap comp size m = some m' ∧ (map m' (range size)).Perm (map m (range size)) ∧
      (IsStrictWeakOrder α (fun a b => comp a b) → IsHeap comp (size - 1) m → IsHeap comp size m')) ∧
    (∃ m', popHeap comp size m = some m' ∧ (map m' (range size)).Perm (map m (range size)) ∧
      (IsStrictWeakOrder α (fun a b => comp a b) → IsHeap comp size m →
        IsHeap comp (size - 1) m' ∧ ∀ i, i < size → comp (m' (size - 1)) (m' i) = false)) ∧
    (∃ m', makeHeap comp size m = some m' ∧ (map m' (range size)).Perm (map m (range size)) ∧
      (IsStrictWeakOrder α (fun a b => comp a b) → IsHeap comp size m')) ∧
    ∃ m', sort comp size m = some m' ∧ (map m' (range size)).Perm (map m (range size)) ∧
      (IsStrictWeakOrder α (fun a b => comp a b) →
        ∀ i j, i < j → j < size → comp (m' j) (m' i) = false) := by
  refine ⟨?_, ?_, ?_, ?_⟩
  · by_cases hone : size ≤ 1
    · exact ⟨m, if_pos hone, .refl _, fun _ _ i _ hi => by omega⟩
    · obtain ⟨m', heq, hre, hheap⟩ := pushHeapUnchecked_spec comp m (show 2 ≤ size by omega)
      exact ⟨m', (if_neg hone).trans heq, hre.perm, hheap⟩
  · by_cases hone : size ≤ 1
    · refine ⟨m, if_pos hone, .refl _, fun ho h => ⟨fun i _ hi => by omega, fun i hi => ?_⟩⟩
      rw [show size - 1 = 0 by omega]
      exact h.top i hi
    · obtain ⟨m', heq, hre, htop, hheap⟩ := popHeapUnchecked_spec comp m (show 2 ≤ size by omega)
      refine ⟨m', (if_neg hone).trans heq, hre.perm, fun ho h => ⟨hheap ho h, fun i hi => ?_⟩⟩
      rw [htop]
      exact hre.forall_inside (P := fun x => comp (m 0) x = false) (fun k _ hk => h.top k hk) i
        (zero_le i) hi
  · obtain ⟨m', heq, hre, hheap⟩ := makeHeap_spec comp size m
    exact ⟨m', heq, hre.perm, hheap⟩
  · obtain ⟨m1, heq1, hre1, hheap⟩ := makeHeap_spec comp size m
    obtain ⟨m2, heq2, hre2, hso⟩ := popAll_spec comp size m1 (Nat.le_refl _)
    refine ⟨m2, ?_, (hre1.trans hre2).perm, fun ho i j => hso ho (hheap ho) i j (zero_le i)⟩
    rw [sort, heq1]
    exact heq2

end USprache.Ustlib.BinaryHeap
