import USprache.Ustlib.Vector

/-!
# The memory of a vector

What the accesses to places and the loops over them do, for a vector whose first places
hold given objects.  A loop changes the contents of places only: the block, the size and
the capacity stay the same.
-/

namespace USprache.Ustlib.Vector

open List

variable {α : Type} (L : ElementLayout) {v other : Vector α} {h : History α}
  {objects others : List (Object α)}

/-- The first places of the vector hold these objects. -/
def Holds (v : Vector α) (objects : List (Object α)) : Prop :=
  ∀ k object, objects[k]? = some object → v.cells k = some object

def HasRoom (v : Vector α) (n : Nat) : Prop := n * L.elementSize ≤ v.bytes

/-- The vectors differ in the contents of their places at most. -/
structure SameBlock (v v' : Vector α) : Prop where
  bytes : v'.bytes = v.bytes
  size : v'.size = v.size
  capacity : v'.capacity = v.capacity

theorem SameBlock.refl (v : Vector α) : SameBlock v v := ⟨rfl, rfl, rfl⟩

theorem SameBlock.write (v : Vector α) (i : Nat) (obj : Object α) :
    SameBlock v (v.write i obj) := ⟨rfl, rfl, rfl⟩

theorem SameBlock.trans {v v' v'' : Vector α} (h : SameBlock v v') (h' : SameBlock v' v'') :
    SameBlock v v'' :=
  ⟨h'.bytes.trans h.bytes, h'.size.trans h.size, h'.capacity.trans h.capacity⟩

variable {n k i : Nat}

variable {L} in
theorem HasRoom.mono {m : Nat} (hrm : HasRoom L v n) (h : m ≤ n) : HasRoom L v m :=
  le_trans (Nat.mul_le_mul_right _ h) hrm

theorem get_of_cells {obj : Object α} (hrm : v.HasRoom L (k + 1))
    (hk : v.cells k = some obj) : v.get L k = .ok obj := by
  have hrm' : (k + 1) * L.elementSize ≤ v.bytes := hrm
  rw [get, if_pos hrm', hk]

theorem get_ok (hv : v.Holds objects) (hrm : v.HasRoom L objects.length)
    {obj : Object α} (hk : objects[k]? = some obj) : v.get L k = .ok obj := by
  obtain ⟨hlt, -⟩ := List.getElem?_eq_some_iff.1 hk
  exact get_of_cells L (hrm.mono hlt) (hv k obj hk)

theorem put_ok (hrm : v.HasRoom L (i + 1)) (obj : Object α) :
    v.put L i obj = .ok (v.write i obj) := if_pos hrm

theorem write_cells_of_ne (obj : Object α) (h : k ≠ i) :
    (v.write i obj).cells k = v.cells k := if_neg h

theorem write_cells_self (i : Nat) (obj : Object α) :
    (v.write i obj).cells i = some obj := if_pos rfl

theorem Holds.nil (v : Vector α) : v.Holds [] := by
  intro k object h
  cases h

theorem Holds.of_append (hv : v.Holds (objects ++ others)) : v.Holds objects := by
  intro k object hk
  apply hv
  obtain ⟨hlt, -⟩ := List.getElem?_eq_some_iff.1 hk
  rw [getElem?_append_left hlt, hk]

theorem Holds.take (hv : v.Holds objects) (n : Nat) : v.Holds (objects.take n) := by
  rw [← take_append_drop n objects] at hv
  exact hv.of_append

theorem Holds.write_append (hv : v.Holds objects) (obj : Object α) :
    (v.write objects.length obj).Holds (objects ++ [obj]) := by
  intro k o hk
  by_cases hla : k = objects.length
  · subst hla
    rw [getElem?_concat_length] at hk
    rw [write_cells_self, hk]
  · have hlt : k < objects.length := by
      obtain ⟨hlt, -⟩ := List.getElem?_eq_some_iff.1 hk
      simp only [length_append, length_singleton] at hlt
      omega
    rw [getElem?_append_left hlt] at hk
    rw [write_cells_of_ne obj hla]
    exact hv k o hk

theorem Holds.write_set (hv : v.Holds objects) (i : Nat) (obj : Object α) :
    (v.write i obj).Holds (objects.set i obj) := by
  intro k o hk
  rw [getElem?_set] at hk
  split at hk
  · rename_i hik
    subst hik
    split at hk
    · rw [write_cells_self, hk]
    · cases hk
  · rename_i hik
    rw [write_cells_of_ne obj (fun h => hik h.symm)]
    exact hv k o hk

def fresh (id : Nat) : List α → List (Object α)
  | [] => []
  | value :: values => { id := id, value := value } :: fresh (id + 1) values

theorem constructAt_ok (values : List α) (hv : v.Holds objects)
    (hrm : v.HasRoom L (objects.length + values.length)) :
    ∃ v', constructAt L v h objects.length values =
        .ok (v', { h with stored := h.stored + values.length }) ∧
      v'.Holds (objects ++ fresh h.stored values) ∧ SameBlock v v' := by
  induction values generalizing v h objects with
  | nil => exact ⟨v, rfl, by simpa [fresh] using hv, .refl v⟩
  | cons value values ih =>
    simp only [length_cons] at hrm
    have hput := put_ok L (hrm.mono (by omega) : v.HasRoom L (objects.length + 1))
    have hlen : (objects ++ [(⟨h.stored, value⟩ : Object α)]).length = objects.length + 1 := by
      rw [length_append, length_singleton]
    obtain ⟨v', hlp, hh, heq⟩ := ih (h := { h with stored := h.stored + 1 })
      (hv.write_append ⟨h.stored, value⟩) (by rw [hlen]; exact hrm.mono (by omega))
    refine ⟨v', ?_, ?_, (SameBlock.write _ _ _).trans heq⟩
    · rw [constructAt, hput]
      rw [hlen] at hlp
      refine hlp.trans ?_
      simp only [length_cons, add_assoc, add_comm 1]
    · rwa [append_assoc] at hh

theorem copyConstructAt_eq (ho : other.Holds others)
    (hrm : other.HasRoom L others.length) (hn : i + n = others.length) :
    copyConstructAt L v h other i n = constructAt L v h i ((others.drop i).map (·.value)) := by
  induction n generalizing v h i with
  | zero =>
    rw [drop_eq_nil_of_le (by omega)]
    rfl
  | succ n ih =>
    have hi : i < others.length := by omega
    have hget := get_ok L ho hrm (getElem?_eq_getElem hi)
    rw [drop_eq_getElem_cons hi, copyConstructAt, hget]
    show (put L v i _ >>= _) = (put L v i _ >>= _)
    congr 1
    funext v'
    exact ih (by omega)

/-- The objects after a copy assignment of the values of others. -/
def assigned (objects others : List (Object α)) : List (Object α) :=
  List.zipWith (fun target object => { id := target.id, value := object.value }) objects others

theorem copyAssignAt_ok (pre othersPre : List (Object α)) {r othersRest : List (Object α)} (n : Nat)
    (hv : v.Holds (pre ++ r)) (hrm : v.HasRoom L (pre ++ r).length)
    (ho : other.Holds (othersPre ++ othersRest))
    (hoRm : other.HasRoom L (othersPre ++ othersRest).length)
    (hlen : othersPre.length = pre.length) (hrs : n ≤ r.length)
    (hos : n ≤ othersRest.length) :
    ∃ v', copyAssignAt L v other pre.length n = .ok v' ∧
      v'.Holds (pre ++ assigned (r.take n) (othersRest.take n) ++ r.drop n) ∧
      SameBlock v v' := by
  induction n generalizing v pre r othersPre othersRest with
  | zero => exact ⟨v, rfl, by simpa [assigned] using hv, .refl v⟩
  | succ n ih =>
    obtain ⟨t, r, rfl⟩ := exists_cons_of_length_pos (lt_of_lt_of_le n.succ_pos hrs)
    obtain ⟨obj, othersRest, rfl⟩ := exists_cons_of_length_pos (lt_of_lt_of_le n.succ_pos hos)
    have hgetO : other.get L pre.length = .ok obj := by
      apply get_ok L ho hoRm
      rw [← hlen]
      simp
    have hget : v.get L pre.length = .ok t := by
      apply get_ok L hv hrm
      simp
    have hput := put_ok L (hrm.mono (by simp) : v.HasRoom L (pre.length + 1))
    have hw := hv.write_set pre.length { id := t.id, value := obj.value }
    rw [set_append_right _ _ (Nat.le_refl _), Nat.sub_self, set_cons_zero, append_cons] at hw
    rw [append_cons] at ho hoRm
    obtain ⟨v', hlp, hh, heq⟩ := ih _ _ hw
      (by simpa [HasRoom, write] using hrm) ho hoRm (by simp [hlen])
      (Nat.le_of_succ_le_succ hrs) (Nat.le_of_succ_le_succ hos)
    refine ⟨v', ?_, ?_, (SameBlock.write _ _ _).trans heq⟩
    · rw [length_append] at hlp
      rw [copyAssignAt, hgetO, hget]
      show (put L v pre.length _ >>= _) = _
      rw [hput]
      exact hlp
    · simpa [assigned] using hh

theorem copyBitsAt_ok (hv : v.Holds objects)
    (hlen : objects.length = v.size + i) (hrm : v.HasRoom L (v.size + others.length))
    (ho : other.Holds others) (hoRm : other.HasRoom L others.length)
    (hn : i + n = others.length) :
    ∃ v', copyBitsAt L v other i n = .ok v' ∧ v'.Holds (objects ++ others.drop i) ∧
      SameBlock v v' := by
  induction n generalizing v objects i with
  | zero =>
    rw [drop_eq_nil_of_le (by omega), append_nil]
    exact ⟨v, rfl, hv, .refl v⟩
  | succ n ih =>
    have hi : i < others.length := by omega
    have hget := get_ok L ho hoRm (getElem?_eq_getElem hi)
    have hput := put_ok L (hrm.mono (by omega) : v.HasRoom L (v.size + i + 1)) others[i]
    have hw := hv.write_append others[i]
    rw [hlen] at hw
    obtain ⟨v', hlp, hh, heq⟩ := ih (i := i + 1) hw
      (by rw [length_append, hlen]; rfl) hrm (by omega)
    refine ⟨v', ?_, ?_, (SameBlock.write _ _ _).trans heq⟩
    · rw [copyBitsAt, hget]
      show (put L v (v.size + i) _ >>= _) = _
      rw [hput]
      exact hlp
    · rwa [append_assoc, singleton_append, ← drop_eq_getElem_cons hi] at hh

theorem destroyAt_ok (hv : v.Holds objects) (hrm : v.HasRoom L objects.length)
    (hn : i + n ≤ objects.length) :
    destroyAt L v h i n = .ok { h with destroyed := h.destroyed ++ (objects.drop i).take n } := by
  induction n generalizing h i with
  | zero => simp [destroyAt]
  | succ n ih =>
    have hi : i < objects.length := by omega
    have hget := get_ok L hv hrm (getElem?_eq_getElem hi)
    rw [destroyAt, hget, drop_eq_getElem_cons hi, take_succ_cons]
    refine (ih (by omega)).trans ?_
    simp

section Compaction

variable (test : List (Object α) → Object α → Bool)

/-- The objects that a compaction keeps, given the ones that it has kept so far. -/
def compacted (kept : List (Object α)) : List (Object α) → List (Object α)
  | [] => kept
  | object :: rest =>
    if test kept object then compacted (kept ++ [object]) rest else compacted kept rest

def dropped (kept : List (Object α)) : List (Object α) → List (Object α)
  | [] => []
  | object :: rest =>
    if test kept object then dropped (kept ++ [object]) rest else object :: dropped kept rest

theorem compacted_append_dropped_perm (kept r : List (Object α)) :
    (compacted test kept r ++ dropped test kept r).Perm (kept ++ r) := by
  induction r generalizing kept with
  | nil => rfl
  | cons obj r ih =>
    rw [compacted, dropped]
    split
    · simpa only [append_assoc, singleton_append] using ih (kept ++ [obj])
    · calc
        _ = compacted test kept r ++ obj :: dropped test kept r := rfl
        List.Perm _ (obj :: (compacted test kept r ++ dropped test kept r)) := perm_middle
        List.Perm _ (obj :: (kept ++ r)) := (ih kept).cons obj
        List.Perm _ (kept ++ obj :: r) := perm_middle.symm

theorem length_compacted_le (kept r : List (Object α)) :
    (compacted test kept r).length ≤ kept.length + r.length := by
  have h := (compacted_append_dropped_perm test kept r).length_eq
  simp only [length_append] at h
  omega

/-- The loop, from a state with the kept objects in front of `dst` and the rest from `src`
on.  Places between are behind it: their objects were destroyed or moved to the front. -/
theorem compactLoop_ok {keep : Vector α → Nat → Object α → Except Stop Bool} (m : Nat)
    (hkeep : ∀ (v : Vector α) kept obj, m ≤ kept.length → v.Holds kept →
      v.HasRoom L kept.length → keep v kept.length obj = .ok (test kept obj))
    {kept r : List (Object α)} {src : Nat} (hm : m ≤ kept.length) (hsrc : kept.length ≤ src)
    (hkpt : v.Holds kept) (hrs : ∀ k obj, r[k]? = some obj → v.cells (src + k) = some obj)
    (hrm : v.HasRoom L (src + r.length)) :
    ∃ v', compactLoop L keep v h kept.length src r.length =
        .ok (v', { h with destroyed := h.destroyed ++ dropped test kept r }) ∧
      v'.Holds (compacted test kept r) ∧ v'.size = (compacted test kept r).length ∧
      v'.bytes = v.bytes ∧ v'.capacity = v.capacity := by
  induction r generalizing v h kept src with
  | nil =>
    exact ⟨{ v with size := kept.length }, by simp [compactLoop, dropped], hkpt, rfl, rfl, rfl⟩
  | cons obj r ih =>
    rw [length_cons] at hrm
    have hce : v.cells src = some obj := hrs 0 obj rfl
    have hnx : ∀ k o, r[k]? = some o → v.cells (src + 1 + k) = some o := by
      intro k o hk
      rw [add_assoc, add_comm 1 k]
      exact hrs (k + 1) o (by rwa [getElem?_cons_succ])
    have hget := get_of_cells L (hrm.mono (by omega)) hce
    have htest := hkeep v kept obj hm hkpt (hrm.mono (by omega))
    rw [length_cons, compactLoop, hget]
    show ∃ v', (keep v kept.length obj >>= _) = _ ∧ _
    rw [htest, compacted, dropped]
    cases test kept obj with
    | true =>
      -- The object is in its new place already if nothing was dropped so far.
      obtain ⟨v1, hmove, hv1, hrs1, heq⟩ : ∃ v1, v.moveDown L kept.length src obj = .ok v1 ∧
            v1.Holds (kept ++ [obj]) ∧
            (∀ k o, r[k]? = some o → v1.cells (src + 1 + k) = some o) ∧ SameBlock v v1 := by
        by_cases hlt : kept.length < src
        · refine ⟨v.write kept.length obj, ?_, hkpt.write_append obj, ?_, .write _ _ _⟩
          · rw [moveDown, if_pos hlt, put_ok L (hrm.mono (by omega))]
          · intro k o hk
            rw [write_cells_of_ne obj (by omega)]
            exact hnx k o hk
        · have hsrc' : kept.length = src := by omega
          refine ⟨v, if_neg hlt, ?_, hnx, .refl v⟩
          intro k o hk
          by_cases hk' : k < kept.length
          · rw [getElem?_append_left hk'] at hk
            exact hkpt k o hk
          · have hkl := (List.getElem?_eq_some_iff.1 hk).1
            rw [length_append, length_singleton] at hkl
            obtain rfl : k = kept.length := by omega
            rw [getElem?_concat_length] at hk
            rw [hsrc', hce, hk]
      have hlen : (kept ++ [obj]).length = kept.length + 1 := by
        rw [length_append, length_singleton]
      obtain ⟨v', hlp, hh, hsz, hbs, hcap⟩ := ih (h := h) (by omega) (by omega) hv1 hrs1
        (by rw [HasRoom, heq.bytes]; exact hrm.mono (by omega))
      refine ⟨v', ?_, hh, hsz, hbs.trans heq.bytes, hcap.trans heq.capacity⟩
      rw [hlen] at hlp
      show (v.moveDown L kept.length src obj >>= _) = _
      rw [hmove]
      exact hlp
    | false =>
      obtain ⟨v', hlp, hh, hsz, hbs, hcap⟩ := ih
        (h := { h with destroyed := h.destroyed ++ [obj] }) hm (by omega) hkpt
        hnx (hrm.mono (by omega))
      refine ⟨v', hlp.trans ?_, hh, hsz, hbs, hcap⟩
      simp only [append_assoc, singleton_append, Bool.false_eq_true, if_false]

end Compaction

end USprache.Ustlib.Vector
