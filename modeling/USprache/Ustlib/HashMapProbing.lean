import Mathlib.Data.List.GetD
import USprache.Library.FiniteMap
import USprache.Library.TableSearch
import USprache.Ustlib.HashMap

/-!
# Cells of the hash map

The invariant of the table as a list of cells: keys differ, every value sits in a
cell that a probe for its key reaches over cells that are not empty, and the
control byte holds the second hash of the key.  From it follows what each probe
loop finds, and the three ways in which a cell changes keep it.
-/

namespace USprache.Ustlib

open LinearProbing List Nat

variable {K V : Type}

theorem and_sub_one_eq_mod {n : Nat} (hn : n.isPowerOfTwo) (i : Nat) : i &&& (n - 1) = i % n := by
  obtain ⟨k, rfl⟩ := hn
  exact and_two_pow_sub_one_eq_mod i k

theorem hash2Of_lt [BEq K] (layout : Layout) (hasher : Hasher K) (key : K) :
    HashMap.hash2Of layout hasher key < 0b10000000 := by
  rw [HashMap.hash2Of, HashMap.calculateHash, Layout.bits]
  cases layout.sizeType with
  | bytes8 => exact lt_of_le_of_lt and_le_right (by decide)
  | bytes4 =>
    show (hasher.hash key % 2 ^ 32) >>> 25 < 128
    omega

/-! ## Lists of cells -/

def Occupied (cells : List (Cell K V)) (i : Nat) : Prop := cellAt cells i ≠ .empty

def occupiedCount (cells : List (Cell K V)) : Nat := cells.countP (fun cell => !cell.isEmpty)

variable {c : Cell K V}

theorem isEmpty_iff : c.isEmpty = true ↔ c = .empty := by
  cases c <;> simp [Cell.isEmpty]

variable {cells : List (Cell K V)} {i : Nat}

theorem lt_length_of_occupied (h : Occupied cells i) : i < cells.length := by
  by_contra hge
  exact h (getD_eq_default _ _ (not_lt.1 hge))

theorem cellAt_set_self (hi : i < cells.length) (c : Cell K V) : cellAt (cells.set i c) i = c := by
  rw [cellAt, getD_eq_getElem _ _ (by rwa [length_set]), getElem_set_self]

theorem cellAt_set_ne {j : Nat} (h : j ≠ i) (c : Cell K V) :
    cellAt (cells.set i c) j = cellAt cells j := by
  rw [cellAt, cellAt, getD_eq_getElem?_getD, getD_eq_getElem?_getD, getElem?_set_ne (Ne.symm h)]

theorem occupied_set {j : Nat} (hce : c ≠ .empty)
    (hi : i < cells.length) (h : Occupied cells j) : Occupied (cells.set i c) j := by
  by_cases hij : j = i
  · subst hij
    rw [Occupied, cellAt_set_self hi]
    exact hce
  · rw [Occupied, cellAt_set_ne hij]
    exact h

theorem entriesOf_set (hi : i < cells.length) (c : Cell K V) : entriesOf (cells.set i c) =
    entriesOf (cells.take i) ++ c.entry.toList ++ entriesOf (cells.drop (i + 1)) := by
  rw [set_eq_take_append_cons_drop, if_pos hi, entriesOf, filterMap_append, append_assoc]
  cases c <;> rfl

theorem entriesOf_eq (hi : i < cells.length) :
    entriesOf cells = entriesOf (cells.take i) ++ (cellAt cells i).entry.toList ++
      entriesOf (cells.drop (i + 1)) := by
  rw [← entriesOf_set hi, cellAt, getD_eq_getElem _ _ hi, set_getElem_self]

theorem entriesOf_take_succ (hi : i < cells.length) :
    entriesOf (cells.take (i + 1)) = entriesOf (cells.take i) ++ (cellAt cells i).entry.toList := by
  rw [take_succ_eq_append_getElem hi, entriesOf, filterMap_append, cellAt, getD_eq_getElem _ _ hi]
  cases cells[i] <;> rfl

theorem exists_entriesOf_perm (hi : i < cells.length) :
    ∃ r, (entriesOf cells).Perm ((cellAt cells i).entry.toList ++ r) ∧
      ∀ c, (entriesOf (cells.set i c)).Perm (c.entry.toList ++ r) := by
  have hmid : ∀ (pre mid post : List (K × V)), (pre ++ mid ++ post).Perm (mid ++ (pre ++ post)) := by
    intro pre mid post
    rw [← append_assoc]
    exact perm_append_comm.append_right post
  refine ⟨entriesOf (cells.take i) ++ entriesOf (cells.drop (i + 1)), ?_, fun c => ?_⟩
  · rw [entriesOf_eq hi]
    exact hmid _ _ _
  · rw [entriesOf_set hi]
    exact hmid _ _ _

theorem exists_cellAt_of_mem {key : K} {v : V}
    (h : (key, v) ∈ entriesOf cells) : ∃ i hash2, cellAt cells i = .value hash2 key v := by
  obtain ⟨cell, hmem, he⟩ := mem_filterMap.1 h
  obtain ⟨i, hi, rfl⟩ := mem_iff_getElem.1 hmem
  cases hce : cells[i] with
  | empty | valueRemoved => rw [hce] at he; cases he
  | value hash2 key' v' =>
    rw [hce] at he
    cases he
    exact ⟨i, hash2, by rw [cellAt, getD_eq_getElem _ _ hi, hce]⟩

theorem length_entriesOf_le (cells : List (Cell K V)) :
    (entriesOf cells).length ≤ occupiedCount cells := by
  induction cells with
  | nil => exact le_refl _
  | cons c cells ih =>
    rw [occupiedCount, countP_cons]
    cases c with
    | empty | valueRemoved => exact le_add_right_of_le ih
    | value hash2 key v => exact succ_le_succ ih

theorem occupiedCount_set (hi : i < cells.length) (c : Cell K V) :
    occupiedCount (cells.set i c) + (if (cellAt cells i).isEmpty then 0 else 1) =
      occupiedCount cells + (if c.isEmpty then 0 else 1) := by
  have hpos : (cellAt cells i).isEmpty = false → 0 < occupiedCount cells := by
    intro h
    rw [cellAt, getD_eq_getElem _ _ hi] at h
    exact countP_pos_iff.2 ⟨cells[i], getElem_mem hi, by simp [h]⟩
  rw [occupiedCount, countP_set hi, ← occupiedCount]
  rw [cellAt, getD_eq_getElem _ _ hi] at hpos ⊢
  cases hc : cells[i].isEmpty <;> cases hc' : c.isEmpty <;> simp [hc] at hpos ⊢ <;> omega

theorem exists_empty_of_lt (h : occupiedCount cells < cells.length) :
    ∃ i < cells.length, cellAt cells i = .empty := by
  by_contra hno
  have hall : ∀ cell ∈ cells, (!cell.isEmpty) = true := by
    intro cell hmem
    obtain ⟨i, hi, rfl⟩ := mem_iff_getElem.1 hmem
    have hne : cells[i] ≠ .empty := fun he =>
      hno ⟨i, hi, by rw [cellAt, getD_eq_getElem _ _ hi, he]⟩
    cases hce : cells[i] with
    | empty => exact absurd hce hne
    | valueRemoved => rfl
    | value hash2 key v => rfl
  rw [occupiedCount, countP_eq_length.2 hall] at h
  omega

/-! ## Placement -/

variable [BEq K]

open HashMap

structure Placed (layout : Layout) (hasher : Hasher K) (cells : List (Cell K V)) : Prop where
  distinct : (entriesOf cells).Pairwise KeysDiffer
  hash2_eq : ∀ i hash2 key v, cellAt cells i = .value hash2 key v →
    hash2 = hash2Of layout hasher key
  reaches : ∀ i hash2 key v, cellAt cells i = .value hash2 key v →
    Reaches (Occupied cells) cells.length (homeOf layout hasher cells.length key) i

theorem placed_replicate (layout : Layout) (hasher : Hasher K) (n : Nat) :
    Placed layout hasher (replicate n (.empty : Cell K V)) := by
  have he : ∀ i, cellAt (replicate n (.empty : Cell K V)) i = .empty := by
    intro i
    rw [cellAt, getD_eq_getElem?_getD, getElem?_replicate]
    split <;> rfl
  constructor
  · rw [entriesOf, filterMap_replicate_of_none rfl]
    exact .nil
  · intro i hash2 key v h
    rw [he] at h
    cases h
  · intro i hash2 key v h
    rw [he] at h
    cases h

section

variable {layout : Layout} {hasher : Hasher K}

variable {key : K} {hash2 home d e : Nat}

theorem calculateHash_congr {key' : K} (h : (key == key') = true) :
    calculateHash layout hasher key = calculateHash layout hasher key' := by
  rw [calculateHash, calculateHash, hasher.hash_eq key key' h]

structure Vacant (layout : Layout) (hasher : Hasher K) (cells : List (Cell K V)) (key : K)
    (i : Nat) : Prop where
  lt : i < cells.length
  entry_eq : (cellAt cells i).entry = none
  reaches : Reaches (Occupied cells) cells.length (homeOf layout hasher cells.length key) i
  differs : ∀ e ∈ entriesOf cells, (key == e.1) = false

theorem Placed.fill (h : Placed layout hasher cells)
    [PartialEquivBEq K] (hi : Vacant layout hasher cells key i) (v : V) :
    Placed layout hasher (cells.set i (.value (hash2Of layout hasher key) key v)) := by
  constructor
  · obtain ⟨r, hrs, hset⟩ := exists_entriesOf_perm hi.lt
    rw [hi.entry_eq] at hrs
    have hnew : ((key, v) :: r).Pairwise KeysDiffer :=
      .cons (fun e he => hi.differs e (hrs.mem_iff.2 he))
        (h.distinct.perm hrs KeysDiffer.symm)
    exact hnew.perm (hset (.value (hash2Of layout hasher key) key v)).symm KeysDiffer.symm
  · intro j hash2 key' v' hj
    by_cases hji : j = i
    · subst hji
      rw [cellAt_set_self hi.lt] at hj
      cases hj
      rfl
    · rw [cellAt_set_ne hji] at hj
      exact h.hash2_eq j hash2 key' v' hj
  · intro j hash2 key' v' hj
    rw [length_set]
    have hmono : ∀ x, Occupied cells x →
        Occupied (cells.set i (.value (hash2Of layout hasher key) key v)) x :=
      fun x hx => occupied_set (by simp) hi.lt hx
    by_cases hji : j = i
    · subst hji
      rw [cellAt_set_self hi.lt] at hj
      cases hj
      exact hi.reaches.mono hmono
    · rw [cellAt_set_ne hji] at hj
      exact (h.reaches j hash2 key' v' hj).mono hmono

theorem Placed.setValue (h : Placed layout hasher cells) {v : V}
    (hi : cellAt cells i = .value hash2 key v) (v' : V) :
    Placed layout hasher (cells.set i (.value hash2 key v')) := by
  have hlt : i < cells.length := lt_length_of_occupied (by rw [Occupied, hi]; simp)
  have hces : ∀ j hash2' key' w, cellAt (cells.set i (.value hash2 key v')) j =
      .value hash2' key' w → ∃ w', cellAt cells j = .value hash2' key' w' := by
    intro j hash2' key' w hj
    by_cases hji : j = i
    · subst hji
      rw [cellAt_set_self hlt] at hj
      cases hj
      exact ⟨v, hi⟩
    · rw [cellAt_set_ne hji] at hj
      exact ⟨w, hj⟩
  constructor
  · have hne := h.distinct
    rw [entriesOf_eq hlt, hi] at hne
    rw [entriesOf_set hlt]
    simp only [Cell.entry, Option.toList_some, append_assoc, singleton_append,
      pairwise_append, pairwise_cons, mem_cons, forall_eq_or_imp] at hne ⊢
    exact hne
  · intro j hash2' key' w hj
    obtain ⟨w', hj'⟩ := hces j hash2' key' w hj
    exact h.hash2_eq j hash2' key' w' hj'
  · intro j hash2' key' w hj
    obtain ⟨w', hj'⟩ := hces j hash2' key' w hj
    rw [length_set]
    exact (h.reaches j hash2' key' w' hj').mono (fun x hx => occupied_set (by simp) hlt hx)

/-- A removed value keeps the placement if a tombstone stays, or if the next cell
is empty. -/
theorem Placed.vacate (h : Placed layout hasher cells) (hi : i < cells.length)
    (hce : c = .valueRemoved ∨ c = .empty ∧ ¬ Occupied cells ((i + 1) % cells.length)) :
    Placed layout hasher (cells.set i c) := by
  have he : c.entry = none := by
    rcases hce with rfl | ⟨rfl, -⟩ <;> rfl
  have hces : ∀ j hash2 key v, cellAt (cells.set i c) j = .value hash2 key v →
      cellAt cells j = .value hash2 key v := by
    intro j hash2 key v hj
    by_cases hji : j = i
    · subst hji
      rw [cellAt_set_self hi] at hj
      rw [hj] at he
      cases he
    · rw [cellAt_set_ne hji] at hj
      exact hj
  constructor
  · have hne := h.distinct
    rw [entriesOf_eq hi] at hne
    rw [entriesOf_set hi, he]
    refine hne.sublist ?_
    simp
  · intro j hash2 key v hj
    exact h.hash2_eq j hash2 key v (hces j hash2 key v hj)
  · intro j hash2 key v hj
    have hj' := hces j hash2 key v hj
    have hwk := h.reaches j hash2 key v hj'
    rw [length_set]
    rcases hce with rfl | ⟨rfl, hnx⟩
    · exact hwk.mono (fun x hx => occupied_set (by simp) hi hx)
    · refine (hwk.vacate hnx (by rw [Occupied, hj']; simp)).mono (fun x hx => ?_)
      rw [Occupied, cellAt_set_ne hx.2]
      exact hx.1

/-! ## Probe loops -/

def Stops (cells : List (Cell K V)) (hash2 : Nat) (key : K) (i : Nat) : Prop :=
  match cellAt cells i with
  | .empty => True
  | .valueRemoved => False
  | .value hash2' key' _ => hash2' = hash2 ∧ (key == key') = true

theorem slot_next {n : Nat} (hn : n.isPowerOfTwo) (home d : Nat) :
    (slot n home d + 1) &&& (n - 1) = slot n home (d + 1) := by
  rw [and_sub_one_eq_mod hn, slot_succ]

/-- What the insertion loop answers: the cell at which it stops, or a removed cell
it came across, if that cell is empty. -/
theorem searchSlot_slot (hn : cells.length.isPowerOfTwo)
    (hsto : Stops cells hash2 key (slot cells.length home e))
    (hbef : ∀ x < e, ¬ Stops cells hash2 key (slot cells.length home x))
    (fuel : Nat) (insertI : Option Nat) (hde : d ≤ e) (hf : e < d + fuel)
    (hins : ∀ i ∈ insertI, ∃ x < e, slot cells.length home x = i ∧ cellAt cells i = .valueRemoved) :
    (cellAt cells (slot cells.length home e) ≠ .empty ∧
      searchSlot cells hash2 key fuel insertI (slot cells.length home d) =
        .ok (.existing (slot cells.length home e))) ∨
    (cellAt cells (slot cells.length home e) = .empty ∧ ∃ x ≤ e, ∃ reused,
        searchSlot cells hash2 key fuel insertI (slot cells.length home d) =
          .ok (.vacant (slot cells.length home x) reused) ∧
        cellAt cells (slot cells.length home x) = if reused then .valueRemoved else .empty) := by
  induction fuel generalizing d insertI with
  | zero => omega
  | succ fuel ih =>
    rcases lt_or_ge d e with hlt | hge
    · have hgo := hbef d hlt
      rw [Stops] at hgo
      rw [searchSlot, slot_next hn]
      cases hce : cellAt cells (slot cells.length home d) with
      | empty =>
        rw [hce] at hgo
        exact absurd trivial hgo
      | valueRemoved =>
        refine ih (insertI.or (some _)) (by omega) (by omega) (fun i hi => ?_)
        cases insertI with
        | some idx => exact hins i hi
        | none =>
          cases hi
          exact ⟨d, hlt, rfl, hce⟩
      | value hash2' key' v =>
        rw [hce] at hgo
        simp only [if_neg hgo]
        exact ih insertI (by omega) (by omega) hins
    · have hed : d = e := by omega
      subst hed
      rw [Stops] at hsto
      rw [searchSlot]
      cases hce : cellAt cells (slot cells.length home d) with
      | empty =>
        refine .inr ⟨rfl, ?_⟩
        cases insertI with
        | none => exact ⟨d, le_refl d, false, rfl, hce⟩
        | some idx =>
          obtain ⟨x, hx, rfl, hrem⟩ := hins idx rfl
          exact ⟨x, le_of_lt hx, true, rfl, hrem⟩
      | valueRemoved =>
        rw [hce] at hsto
        exact absurd hsto id
      | value hash2' key' v =>
        rw [hce] at hsto
        refine .inl ⟨by simp, ?_⟩
        simp only [if_pos hsto]

omit [BEq K] in
theorem searchEmpty_slot (hn : cells.length.isPowerOfTwo)
    (hsto : cellAt cells (slot cells.length home e) = .empty)
    (hbef : ∀ x < e, cellAt cells (slot cells.length home x) ≠ .empty)
    (fuel : Nat) (hde : d ≤ e) (hf : e < d + fuel) :
    searchEmpty cells fuel (slot cells.length home d) = .ok (slot cells.length home e) := by
  induction fuel generalizing d with
  | zero => omega
  | succ fuel ih =>
    rcases lt_or_ge d e with hlt | hge
    · have hgo := hbef d hlt
      have hrs := ih (show d + 1 ≤ e by omega) (by omega)
      rw [searchEmpty, slot_next hn]
      split
      · rename_i hce
        exact absurd hce hgo
      · exact hrs
    · have hed : d = e := by omega
      subst hed
      rw [searchEmpty, hsto]

/-! ## Searches in a placed table -/

theorem slot_homeOf (hn : cells.length.isPowerOfTwo) (key : K) :
    slot cells.length (homeOf layout hasher cells.length key) 0 =
      homeOf layout hasher cells.length key := by
  refine mod_eq_of_lt ?_
  rw [homeOf, and_sub_one_eq_mod hn]
  exact mod_lt _ (pos_of_isPowerOfTwo hn)

/-- A probe stops within one round, and an empty cell there means that the key is
not in the table. -/
theorem Placed.exists_stop [PartialEquivBEq K] (h : Placed layout hasher cells)
    (hemp : ∃ i < cells.length, cellAt cells i = .empty) (key : K) :
    ∃ e < cells.length, Stops cells (hash2Of layout hasher key) key
        (slot cells.length (homeOf layout hasher cells.length key) e) ∧
      (∀ x < e, ¬ Stops cells (hash2Of layout hasher key) key
        (slot cells.length (homeOf layout hasher cells.length key) x)) ∧
      (cellAt cells (slot cells.length (homeOf layout hasher cells.length key) e) = .empty →
        ∀ entry ∈ entriesOf cells, (key == entry.1) = false) := by
  obtain ⟨i, hi, hce⟩ := hemp
  obtain ⟨e, he, hsto, hbef⟩ := exists_first_slot (Stops cells (hash2Of layout hasher key) key)
    (homeOf layout hasher cells.length key) hi (by rw [Stops, hce]; trivial)
  refine ⟨e, he, hsto, hbef, ?_⟩
  intro hend entry hen
  by_contra hkey
  rw [Bool.not_eq_false] at hkey
  obtain ⟨j, hash2, hj⟩ := exists_cellAt_of_mem hen
  -- The cell of an equal key is on the same probe, before the empty cell.
  have hhash : calculateHash layout hasher entry.1 = calculateHash layout hasher key :=
    calculateHash_congr (BEq.symm hkey)
  have hhome : homeOf layout hasher cells.length entry.1 =
      homeOf layout hasher cells.length key := by rw [homeOf, hhash, homeOf]
  have hhash2 : hash2 = hash2Of layout hasher key := by
    rw [h.hash2_eq j hash2 entry.1 entry.2 hj, hash2Of, hhash, hash2Of]
  obtain ⟨d, -, hslot, hwk⟩ := h.reaches j hash2 entry.1 entry.2 hj
  rw [hhome] at hslot hwk
  rcases lt_trichotomy d e with hlt | rfl | hgt
  · refine hbef d hlt ?_
    rw [hslot, Stops, hj]
    exact ⟨hhash2, hkey⟩
  · rw [hslot, hj] at hend
    cases hend
  · exact hwk e hgt hend

theorem Placed.searchSlot_spec [PartialEquivBEq K] (h : Placed layout hasher cells)
    (hn : cells.length.isPowerOfTwo) (hemp : ∃ i < cells.length, cellAt cells i = .empty)
    (key : K) :
    (∃ i hash2 key' v, searchSlot cells (hash2Of layout hasher key) key cells.length none
        (homeOf layout hasher cells.length key) = .ok (.existing i) ∧
      cellAt cells i = .value hash2 key' v ∧ (key == key') = true) ∨
    ∃ i reused, searchSlot cells (hash2Of layout hasher key) key cells.length none
        (homeOf layout hasher cells.length key) = .ok (.vacant i reused) ∧
      cellAt cells i = (if reused then .valueRemoved else .empty) ∧
      Vacant layout hasher cells key i := by
  obtain ⟨e, he, hsto, hbef, hend⟩ := h.exists_stop hemp key
  have hfd := searchSlot_slot hn hsto hbef cells.length none (zero_le e) (by omega)
    (fun i hi => by cases hi)
  rw [slot_homeOf hn] at hfd
  rcases hfd with ⟨hce, hfd⟩ | ⟨hce, x, hx, reused, hfd, hxce⟩
  · rw [Stops] at hsto
    split at hsto
    · rename_i hce'
      exact absurd hce' hce
    · exact absurd hsto id
    · rename_i hash2 key' v hce'
      exact .inl ⟨_, hash2, key', v, hfd, hce', hsto.2⟩
  · refine .inr ⟨_, reused, hfd, hxce, ?_⟩
    constructor
    · exact mod_lt _ (pos_of_isPowerOfTwo hn)
    · rw [hxce]
      cases reused <;> rfl
    · refine ⟨x, by omega, rfl, fun y hy hyem => ?_⟩
      refine hbef y (by omega) ?_
      rw [Stops, hyem]
      trivial
    · exact hend hce

def Slot.found : Slot → Option Nat
  | .existing i => some i
  | .vacant _ _ => none

/-- The search loop stops where the insertion loop does. -/
theorem searchCell_eq (fuel : Nat) : ∀ (insertI : Option Nat) (i : Nat),
    searchCell cells hash2 key fuel i = (searchSlot cells hash2 key fuel insertI i).map Slot.found := by
  induction fuel with
  | zero => exact fun _ _ => rfl
  | succ fuel ih =>
    intro insertI i
    rw [searchCell, searchSlot]
    cases cellAt cells i with
    | empty => cases insertI <;> rfl
    | valueRemoved => exact ih _ _
    | value hash2' key' v =>
      simp only
      split_ifs
      · rfl
      · exact ih _ _

theorem Placed.searchCell_spec [PartialEquivBEq K] (h : Placed layout hasher cells)
    (hn : cells.length.isPowerOfTwo) (hemp : ∃ i < cells.length, cellAt cells i = .empty)
    (key : K) :
    (searchCell cells (hash2Of layout hasher key) key cells.length
        (homeOf layout hasher cells.length key) = .ok none ∧
      ∀ entry ∈ entriesOf cells, (key == entry.1) = false) ∨
    ∃ i hash2 key' v, searchCell cells (hash2Of layout hasher key) key cells.length
        (homeOf layout hasher cells.length key) = .ok (some i) ∧
      cellAt cells i = .value hash2 key' v ∧ (key == key') = true := by
  rw [searchCell_eq _ none]
  rcases h.searchSlot_spec hn hemp key with ⟨i, hash2, key', v, hfd, hce⟩ | ⟨i, reused, hfd, -, hi⟩
  · exact .inr ⟨i, hash2, key', v, by rw [hfd]; rfl, hce⟩
  · exact .inl ⟨by rw [hfd]; rfl, hi.differs⟩

theorem searchEmpty_spec (layout : Layout) (hasher : Hasher K) (hn : cells.length.isPowerOfTwo)
    (hemp : ∃ i < cells.length, cellAt cells i = .empty) (key : K)
    (hdf : ∀ entry ∈ entriesOf cells, (key == entry.1) = false) :
    ∃ i, searchEmpty cells cells.length (homeOf layout hasher cells.length key) = .ok i ∧
      cellAt cells i = .empty ∧ Vacant layout hasher cells key i := by
  obtain ⟨j, hj, hce⟩ := hemp
  obtain ⟨e, he, hsto, hbef⟩ := exists_first_slot (fun i => cellAt cells i = .empty)
    (homeOf layout hasher cells.length key) hj hce
  have hfd := searchEmpty_slot hn hsto hbef cells.length (zero_le e) (by omega)
  rw [slot_homeOf hn] at hfd
  refine ⟨_, hfd, hsto, ?_⟩
  constructor
  · exact mod_lt _ (pos_of_isPowerOfTwo hn)
  · rw [hsto]
    rfl
  · exact ⟨e, he, rfl, hbef⟩
  · exact hdf

end

end USprache.Ustlib
