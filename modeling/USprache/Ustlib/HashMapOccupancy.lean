import USprache.Ustlib.HashMapProbing

/-!
# Occupancy of the hash map

The counters of a map count its cells, the capacity is zero or a power of two
that is large enough, and a table is never full.  A rehash restores all of it with
room for at least one more key.
-/

namespace USprache.Ustlib

open HashMap List Nat

theorem le_doubleUntil (s : Nat) {turns res : Nat} (h : s ≤ res * 2 ^ turns) :
    s ≤ doubleUntil s turns res := by
  induction turns generalizing res with
  | zero => simpa [doubleUntil] using h
  | succ turns ih =>
    rw [doubleUntil]
    split
    · refine ih ?_
      rw [shiftLeft_eq, mul_assoc, ← pow_succ']
      exact h
    · omega

theorem doubleUntil_isPowerOfTwo (s : Nat) {turns res : Nat} (h : res.isPowerOfTwo) :
    (doubleUntil s turns res).isPowerOfTwo := by
  induction turns generalizing res with
  | zero => exact h
  | succ turns ih =>
    rw [doubleUntil]
    split
    · refine ih ?_
      rw [shiftLeft_eq]
      exact isPowerOfTwo_mul_two_of_isPowerOfTwo h
    · exact h

theorem le_getNearestPowerOfTwoSize (s : Nat) : s ≤ getNearestPowerOfTwoSize s := by
  refine le_doubleUntil s ?_
  rw [one_mul]
  exact le_of_lt Nat.lt_two_pow_self

theorem eight_dvd_of_isPowerOfTwo {n : Nat} (hn : n.isPowerOfTwo) (h : 8 ≤ n) : 8 ∣ n := by
  obtain ⟨k, rfl⟩ := hn
  have hk : 3 ≤ k := by
    by_contra hlt
    have : 2 ^ k < 2 ^ 3 := Nat.pow_lt_pow_right (by omega) (by omega)
    omega
  exact Nat.pow_dvd_pow 2 hk

namespace Layout

theorem eight_le_minNonZeroCapacity (layout : Layout) : 8 ≤ layout.minNonZeroCapacity := by
  rw [minNonZeroCapacity]
  split <;> omega

theorem minNonZeroCapacity_isPowerOfTwo (layout : Layout) :
    layout.minNonZeroCapacity.isPowerOfTwo := by
  rw [minNonZeroCapacity]
  split
  · exact layout.alignOf_isPowerOfTwo
  · exact ⟨3, rfl⟩

end Layout

def ValidCapacity (layout : Layout) (n : Nat) : Prop :=
  n.isPowerOfTwo ∧ layout.minNonZeroCapacity ≤ n

theorem maxOccupancy_lt {layout : Layout} {n : Nat} (h : ValidCapacity layout n) :
    maxOccupancy n < n := by
  have := layout.eight_le_minNonZeroCapacity
  have hle := h.2
  rw [maxOccupancy, maxLoadingFactorDenominator, maxLoadingFactorNumerator]
  omega

theorem rehashCapacity_valid (layout : Layout) (newSz : Nat) :
    ValidCapacity layout (rehashCapacity layout newSz) := by
  refine ⟨?_, le_max_right _ _⟩
  rw [rehashCapacity]
  rcases le_total (calculateCapacityForGivenSize newSz) layout.minNonZeroCapacity with hle | hle
  · rw [max_eq_right hle]
    exact layout.minNonZeroCapacity_isPowerOfTwo
  · rw [max_eq_left hle]
    exact doubleUntil_isPowerOfTwo _ isPowerOfTwo_one

/-- A rehash leaves room for the requested size and one more key under the load
limit. -/
theorem rehashCapacity_large (layout : Layout) (newSz : Nat) :
    newSz + 1 ≤ maxOccupancy (rehashCapacity layout newSz) := by
  have hok := rehashCapacity_valid layout newSz
  obtain ⟨q, hq⟩ := eight_dvd_of_isPowerOfTwo hok.1
    (le_trans layout.eight_le_minNonZeroCapacity hok.2)
  have hle : ((newSz + 1) * 8 + 5 - 1) / 5 ≤ rehashCapacity layout newSz :=
    le_trans (le_getNearestPowerOfTwoSize _) (le_max_left _ _)
  rw [maxOccupancy, maxLoadingFactorDenominator, maxLoadingFactorNumerator]
  omega

variable {K V : Type} [BEq K]

structure Invariant (layout : Layout) (m : HashMap K V) : Prop where
  placed : Placed layout m.hasher m.cells
  capacity : m.capacity = 0 ∨ ValidCapacity layout m.capacity
  size_eq : m.size = (entriesOf m.cells).length
  numOccupiedSlots_eq : m.numOccupiedSlots = occupiedCount m.cells
  notFull : m.capacity ≠ 0 → m.numOccupiedSlots < m.capacity

theorem invariant_new (layout : Layout) (hasher : Hasher K) :
    Invariant layout ({ hasher } : HashMap K V) where
  placed := placed_replicate layout hasher 0
  capacity := .inl rfl
  size_eq := rfl
  numOccupiedSlots_eq := rfl
  notFull := fun h => absurd rfl h

namespace Invariant

variable {layout : Layout} {m : HashMap K V}

theorem size_le (h : Invariant layout m) : m.size ≤ m.numOccupiedSlots := by
  rw [h.size_eq, h.numOccupiedSlots_eq]
  exact length_entriesOf_le m.cells

theorem exists_empty (h : Invariant layout m) (hc : m.capacity ≠ 0) :
    ∃ i < m.cells.length, cellAt m.cells i = .empty := by
  refine exists_empty_of_lt ?_
  rw [← h.numOccupiedSlots_eq]
  exact h.notFull hc

theorem isPowerOfTwo (h : Invariant layout m) (hc : m.capacity ≠ 0) :
    m.cells.length.isPowerOfTwo := by
  rcases h.capacity with h0 | hok
  · exact absurd h0 hc
  · exact hok.1

theorem capacity_ne_zero (h : Invariant layout m) (hsz : m.size ≠ 0) : m.capacity ≠ 0 := by
  intro h0
  have hnil : m.cells = [] := eq_nil_of_length_eq_zero h0
  rw [h.size_eq, hnil] at hsz
  exact hsz rfl

end Invariant

namespace Invariant

variable {layout : Layout} {m : HashMap K V}

theorem fill [PartialEquivBEq K] (h : Invariant layout m) {i : Nat} {reused : Bool} {key : K}
    (hrm : m.numOccupiedSlots + 1 < m.capacity)
    (hce : cellAt m.cells i = if reused then .valueRemoved else .empty)
    (hi : Vacant layout m.hasher m.cells key i) (v : V) :
    Invariant layout (m.fill layout i reused key v) ∧
      (entriesOf (m.fill layout i reused key v).cells).Perm ((key, v) :: entriesOf m.cells) := by
  obtain ⟨rest, hrs, hset⟩ := exists_entriesOf_perm hi.lt
  have hc := occupiedCount_set hi.lt (.value (hash2Of layout m.hasher key) key v)
  have hlen : (m.cells.set i (.value (hash2Of layout m.hasher key) key v)).length = m.capacity :=
    length_set
  rw [hi.entry_eq] at hrs
  have hpm : (entriesOf (m.fill layout i reused key v).cells).Perm
      ((key, v) :: entriesOf m.cells) :=
    (hset (.value (hash2Of layout m.hasher key) key v)).trans (hrs.symm.cons (key, v))
  have hocc : (m.fill layout i reused key v).numOccupiedSlots =
      occupiedCount (m.fill layout i reused key v).cells := by
    rw [hce] at hc
    show (if reused then m.numOccupiedSlots else m.numOccupiedSlots + 1) =
      occupiedCount (m.cells.set i (.value (hash2Of layout m.hasher key) key v))
    rw [h.numOccupiedSlots_eq]
    cases reused with
    | true =>
      exact (add_right_cancel hc).symm
    | false =>
      exact hc.symm
  refine ⟨?_, hpm⟩
  constructor
  · exact h.placed.fill hi v
  · show (m.cells.set i _).length = 0 ∨ ValidCapacity layout (m.cells.set i _).length
    rw [hlen]
    exact h.capacity
  · rw [hpm.length_eq, length_cons, ← h.size_eq]
    rfl
  · exact hocc
  · intro _
    show (if reused then m.numOccupiedSlots else m.numOccupiedSlots + 1) < (m.cells.set i _).length
    split <;> omega

variable {i hash2 : Nat} {key : K} {v : V}

theorem setValue (h : Invariant layout m) (hi : cellAt m.cells i = .value hash2 key v) (v' : V) :
    Invariant layout (m.setValue i v') := by
  have hlt : i < m.cells.length := lt_length_of_occupied (by rw [Occupied, hi]; simp)
  have hset : m.setValue i v' = { m with cells := m.cells.set i (.value hash2 key v') } := by
    rw [HashMap.setValue, hi]
  have hc := occupiedCount_set hlt (.value hash2 key v')
  rw [hi] at hc
  rw [hset]
  constructor
  · exact h.placed.setValue hi v'
  · show (m.cells.set i _).length = 0 ∨ ValidCapacity layout (m.cells.set i _).length
    rw [length_set]
    exact h.capacity
  · show m.size = (entriesOf (m.cells.set i _)).length
    rw [entriesOf_set hlt, h.size_eq, entriesOf_eq hlt, hi]
    simp [Cell.entry]
  · show m.numOccupiedSlots = occupiedCount (m.cells.set i _)
    rw [h.numOccupiedSlots_eq]
    exact (add_right_cancel hc).symm
  · show (m.cells.set i _).length ≠ 0 → m.numOccupiedSlots < (m.cells.set i _).length
    rw [length_set]
    exact h.notFull

theorem vacate_cases (h : Invariant layout m) (hi : cellAt m.cells i = .value hash2 key v) :
    ∃ c, (m.vacate i).cells = m.cells.set i c ∧ (m.vacate i).size = m.size - 1 ∧
      (m.vacate i).hasher = m.hasher ∧
      ((c = .valueRemoved ∧ (m.vacate i).numOccupiedSlots = m.numOccupiedSlots) ∨
        (c = .empty ∧ ¬ Occupied m.cells ((i + 1) % m.cells.length) ∧
          (m.vacate i).numOccupiedSlots = m.numOccupiedSlots - 1)) := by
  have hlt : i < m.cells.length := lt_length_of_occupied (by rw [Occupied, hi]; simp)
  have hn : m.cells.length.isPowerOfTwo := h.isPowerOfTwo (by rw [HashMap.capacity]; omega)
  by_cases hnx : (cellAt m.cells ((i + 1) &&& (m.capacity - 1))).isEmpty = true
  · refine ⟨.empty, ?_⟩
    rw [vacate, if_pos hnx]
    refine ⟨rfl, rfl, rfl, .inr ⟨rfl, ?_, rfl⟩⟩
    rw [HashMap.capacity, and_sub_one_eq_mod hn] at hnx
    exact fun hocc => hocc (isEmpty_iff.1 hnx)
  · refine ⟨.valueRemoved, ?_⟩
    rw [vacate, if_neg hnx]
    exact ⟨rfl, rfl, rfl, .inl ⟨rfl, rfl⟩⟩

theorem vacate (h : Invariant layout m) (hi : cellAt m.cells i = .value hash2 key v) :
    Invariant layout (m.vacate i) := by
  have hlt : i < m.cells.length := lt_length_of_occupied (by rw [Occupied, hi]; simp)
  obtain ⟨c, hces, hsz, hhas, hcs⟩ := h.vacate_cases hi
  have hcnt := occupiedCount_set hlt c
  have he : c.entry = none := by
    rcases hcs with ⟨rfl, -⟩ | ⟨rfl, -⟩ <;> rfl
  have hnotFu := h.notFull (by rw [HashMap.capacity]; omega)
  have hoccupied : (m.vacate i).numOccupiedSlots = occupiedCount (m.cells.set i c) := by
    rw [hi] at hcnt
    rcases hcs with ⟨rfl, hocc⟩ | ⟨rfl, -, hocc⟩ <;> rw [hocc, h.numOccupiedSlots_eq]
    · exact (add_right_cancel hcnt).symm
    · simp only [Cell.isEmpty, if_true, Bool.false_eq_true, if_false] at hcnt
      omega
  constructor
  · rw [hces, hhas]
    exact h.placed.vacate hlt (hcs.imp And.left (fun hc => ⟨hc.1, hc.2.1⟩))
  · rw [HashMap.capacity, hces, length_set]
    exact h.capacity
  · rw [hsz, hces, h.size_eq, entriesOf_set hlt, entriesOf_eq hlt, hi, he]
    simp [Cell.entry]
  · rw [hces]
    exact hoccupied
  · intro _
    rw [HashMap.capacity, hces, length_set]
    rw [HashMap.capacity] at hnotFu
    omega

end Invariant

/-- The new table during a rehash: placed and without tombstones. -/
structure Moved (layout : Layout) (hasher : Hasher K) (cells : List (Cell K V)) : Prop where
  placed : Placed layout hasher cells
  occupiedCount_eq : occupiedCount cells = (entriesOf cells).length

variable {layout : Layout} {m : HashMap K V}

theorem Moved.moveCell [PartialEquivBEq K] {hasher : Hasher K}
    {new : List (Cell K V)} (h : Moved layout hasher new) (hn : new.length.isPowerOfTwo)
    (hrm : (entriesOf new).length < new.length) (hash2 : Nat) {key : K} (v : V)
    (hdf : ∀ e ∈ entriesOf new, (key == e.1) = false) :
    ∃ cs, moveCell layout hasher new (.value hash2 key v) = .ok cs ∧
      cs.length = new.length ∧ Moved layout hasher cs ∧
      (entriesOf cs).Perm ((key, v) :: entriesOf new) := by
  have he : ∃ i < new.length, cellAt new i = .empty :=
    exists_empty_of_lt (by rwa [h.occupiedCount_eq])
  obtain ⟨i, hfd, hce, hvac⟩ := searchEmpty_spec layout hasher hn he key hdf
  obtain ⟨rest, hrs, hset⟩ := exists_entriesOf_perm hvac.lt
  have hc := occupiedCount_set hvac.lt (.value (hash2Of layout hasher key) key v)
  rw [hce] at hrs hc
  have hpm := (hset (.value (hash2Of layout hasher key) key v)).trans (hrs.symm.cons (key, v))
  refine ⟨new.set i (.value (hash2Of layout hasher key) key v), ?_, length_set, ?_, hpm⟩
  · rw [HashMap.moveCell, hfd]
    rfl
  · refine ⟨h.placed.fill hvac v, ?_⟩
    have hlen := hpm.length_eq
    rw [length_cons] at hlen
    simp only [Cell.isEmpty, if_true, Bool.false_eq_true, if_false, h.occupiedCount_eq] at hc
    omega

theorem foldlM_moveCell [PartialEquivBEq K] {hasher : Hasher K}
    (old : List (Cell K V)) {new : List (Cell K V)} (hn : new.length.isPowerOfTwo) (hnew : Moved layout hasher new)
    (hne : (entriesOf old ++ entriesOf new).Pairwise KeysDiffer)
    (hrm : (entriesOf old ++ entriesOf new).length < new.length) :
    ∃ cs, old.foldlM (moveCell layout hasher) new = .ok cs ∧ cs.length = new.length ∧
      Moved layout hasher cs ∧ (entriesOf cs).Perm (entriesOf old ++ entriesOf new) := by
  induction old generalizing new with
  | nil => exact ⟨new, rfl, rfl, hnew, .refl _⟩
  | cons c old ih =>
    cases c with
    | empty | valueRemoved => exact ih hn hnew hne hrm
    | value hash2 key v =>
      have hco : entriesOf (.value hash2 key v :: old) = (key, v) :: entriesOf old := rfl
      rw [hco] at hne hrm ⊢
      rw [cons_append] at hne hrm
      obtain ⟨hhd, -⟩ := pairwise_cons.1 hne
      obtain ⟨cs, hces, hlen, hmvd, hpm⟩ := hnew.moveCell hn
        (by rw [length_cons, length_append] at hrm; omega) hash2 v
        (fun e he => hhd e (mem_append_right _ he))
      have hmid : (entriesOf old ++ entriesOf cs).Perm
          ((key, v) :: (entriesOf old ++ entriesOf new)) :=
        (hpm.append_left (entriesOf old)).trans perm_middle
      obtain ⟨r, hres, hlen', hmvd', hpm'⟩ := ih (hlen ▸ hn) hmvd
        (hne.perm hmid.symm KeysDiffer.symm) (by rw [hmid.length_eq, hlen]; exact hrm)
      refine ⟨r, ?_, hlen'.trans hlen, hmvd', hpm'.trans hmid⟩
      rw [foldlM_cons, hces]
      exact hres

/-- What a rehash leaves: the same entries, no tombstones and the chosen
capacity. -/
theorem Invariant.rehash [PartialEquivBEq K]
    (h : Invariant layout m) {newSize : Nat} (hsz : m.size ≤ newSize) :
    ∃ m', m.rehash layout newSize = .ok m' ∧ Invariant layout m' ∧
      (entriesOf m'.cells).Perm (entriesOf m.cells) ∧
      m'.capacity = rehashCapacity layout newSize ∧ m'.numOccupiedSlots = m.size := by
  have hok := rehashCapacity_valid layout newSize
  have hlg := rehashCapacity_large layout newSize
  have hlim := maxOccupancy_lt hok
  have hlen : (replicate (rehashCapacity layout newSize) (.empty : Cell K V)).length =
      rehashCapacity layout newSize := length_replicate
  have hnil : entriesOf (replicate (rehashCapacity layout newSize) (.empty : Cell K V)) = [] :=
    filterMap_replicate_of_none rfl
  have hmvd : Moved layout m.hasher
      (replicate (rehashCapacity layout newSize) (.empty : Cell K V)) := by
    refine ⟨placed_replicate layout m.hasher _, ?_⟩
    rw [hnil, occupiedCount, countP_replicate]
    rfl
  obtain ⟨cells, hces, hclen, hcmo, hpm⟩ := foldlM_moveCell m.cells
    (hlen.symm ▸ hok.1) hmvd (by rw [hnil, append_nil]; exact h.placed.distinct)
    (by rw [hnil, append_nil, ← h.size_eq]; omega)
  rw [hnil, append_nil] at hpm
  rw [hlen] at hclen
  refine ⟨{ m with cells := cells, numOccupiedSlots := m.size }, ?_, ?_, hpm, hclen, rfl⟩
  · rw [HashMap.rehash, hces]
    rfl
  · constructor
    · exact hcmo.placed
    · refine .inr ?_
      show ValidCapacity layout cells.length
      rw [hclen]
      exact hok
    · exact h.size_eq.trans hpm.length_eq.symm
    · show m.size = occupiedCount cells
      rw [hcmo.occupiedCount_eq, hpm.length_eq, h.size_eq]
    · intro _
      show m.size < cells.length
      omega

/-- After the check before an insertion there is room for one more key under the
load limit. -/
theorem Invariant.tryRehashOnInsert [PartialEquivBEq K] (h : Invariant layout m) :
    ∃ m', m.tryRehashOnInsert layout = .ok m' ∧ Invariant layout m' ∧
      (entriesOf m'.cells).Perm (entriesOf m.cells) ∧
      m'.numOccupiedSlots + 1 ≤ maxOccupancy m'.capacity := by
  rw [HashMap.tryRehashOnInsert]
  by_cases hfu : m.numOccupiedSlots + 1 > maxOccupancy m.capacity
  · rw [if_pos hfu]
    obtain ⟨m', hm', hinv, hpm, hcap, hocc⟩ :=
      h.rehash (show m.size ≤ m.size + 1 + ((m.numOccupiedSlots - m.size) >>> 1) by omega)
    refine ⟨m', hm', hinv, hpm, ?_⟩
    have hlg := rehashCapacity_large layout (m.size + 1 + ((m.numOccupiedSlots - m.size) >>> 1))
    rw [hcap]
    omega
  · rw [if_neg hfu]
    exact ⟨m, rfl, h, .refl _, by omega⟩

theorem Invariant.tryRehashOnRemove [PartialEquivBEq K] (h : Invariant layout m) :
    ∃ m', m.tryRehashOnRemove layout = .ok m' ∧ Invariant layout m' ∧
      (entriesOf m'.cells).Perm (entriesOf m.cells) := by
  rw [HashMap.tryRehashOnRemove]
  split
  · obtain ⟨m', hm', hinv, hpm, -, -⟩ := h.rehash (le_refl m.size)
    exact ⟨m', hm', hinv, hpm⟩
  · exact ⟨m, rfl, h, .refl _⟩

end USprache.Ustlib
