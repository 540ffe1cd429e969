import USprache.Ustlib.HashMapOccupancy

/-!
# Operations of the hash map

A table represents a finite map if it keeps its invariant and has the same entries
in some order.  Each function of the hash map does to the table what the function
of the same name does to the finite map, gives the same answer, and never
diverges.
-/

namespace USprache

open List Nat FiniteMap

namespace FiniteMap

variable {K V : Type} [BEq K]

def insertNew (a : FiniteMap K V) (key : K) (v : V) : Bool × FiniteMap K V :=
  if h : a.contains key = false then (true, a.insert key v h) else (false, a)

def insertOrUpdate (a : FiniteMap K V) (key : K) (v : V) : Bool × FiniteMap K V :=
  if h : a.contains key = false then (true, a.insert key v h) else (false, a.modify key (fun _ => v))

def findOrConstructNew (a : FiniteMap K V) (key : K) (constructionFunc : Unit → V) :
    Option V × FiniteMap K V :=
  if h : a.contains key = false then
    (some (constructionFunc ()), a.insert key (constructionFunc ()) h)
  else (a.lookup key, a)

end FiniteMap

namespace Ustlib

open HashMap

variable {K V : Type} [BEq K]

structure Represents (layout : Layout) (m : HashMap K V) (a : FiniteMap K V) : Prop where
  invariant : Invariant layout m
  entries : (entriesOf m.cells).Perm a.entries

theorem represents_new (layout : Layout) (hasher : Hasher K) :
    Represents layout ({ hasher } : HashMap K V) empty :=
  ⟨invariant_new layout hasher, .refl _⟩

namespace Represents

variable {layout : Layout} {m : HashMap K V} {a : FiniteMap K V} (h : Represents layout m a)

include h

theorem of_perm {m' : HashMap K V} (hm' : Invariant layout m')
    (hpm : (entriesOf m'.cells).Perm (entriesOf m.cells)) : Represents layout m' a :=
  ⟨hm', hpm.trans h.entries⟩

theorem size_eq : m.size = a.size :=
  h.invariant.size_eq.trans h.entries.length_eq

variable {key : K} {i : Nat}

theorem contains_eq_false
    (hdf : ∀ entry ∈ entriesOf m.cells, (key == entry.1) = false) :
    a.contains key = false :=
  contains_eq_false_iff.2 (fun e he => hdf e (h.entries.mem_iff.2 he))

theorem exists_rest {hash2 : Nat} {k : K} {v : V}
    (hi : cellAt m.cells i = .value hash2 k v) :
    ∃ r, a.entries.Perm ((k, v) :: r) ∧
      ∀ c, (entriesOf (m.cells.set i c)).Perm (c.entry.toList ++ r) := by
  have hlt : i < m.cells.length := lt_length_of_occupied (by rw [Occupied, hi]; simp)
  obtain ⟨r, hrs, hset⟩ := exists_entriesOf_perm hlt
  rw [hi] at hrs
  exact ⟨r, h.entries.symm.trans hrs, hset⟩

omit h in
theorem valueAt_eq {hash2 : Nat} {k : K} {v : V} (hi : cellAt m.cells i = .value hash2 k v) :
    m.valueAt i = some v := by
  rw [valueAt, hi]
  rfl

theorem erase_missing (hno : a.contains key = false) :
    Represents layout m (a.erase key) :=
  ⟨h.invariant, by rw [erase_of_not_contains hno]; exact h.entries⟩

omit h in
theorem lookup_missing (hno : a.contains key = false) : a.lookup key = none := by
  rw [contains_eq] at hno
  exact Option.not_isSome_iff_eq_none.1 (by rw [hno]; exact Bool.false_ne_true)

variable [EquivBEq K]

theorem fill {reused : Bool} (hrm : m.numOccupiedSlots + 1 < m.capacity)
    (hce : cellAt m.cells i = if reused then .valueRemoved else .empty)
    (hi : Vacant layout m.hasher m.cells key i) (v : V) (hnew : a.contains key = false) :
    Represents layout (m.fill layout i reused key v) (a.insert key v hnew) := by
  obtain ⟨hinv, hpm⟩ := h.invariant.fill hrm hce hi v
  exact ⟨hinv, hpm.trans (h.entries.cons (key, v))⟩

variable {hash2 : Nat} {k : K} {v : V}

theorem setValue (hi : cellAt m.cells i = .value hash2 k v)
    (hkey : (key == k) = true) (f : V → V) :
    Represents layout (m.setValue i (f v)) (a.modify key f) := by
  obtain ⟨rest, hrs, hset⟩ := h.exists_rest hi
  refine ⟨h.invariant.setValue hi (f v), ?_⟩
  rw [HashMap.setValue, hi]
  exact (hset (.value hash2 k (f v))).trans (modify_perm f hrs hkey).symm

theorem vacate (hi : cellAt m.cells i = .value hash2 k v)
    (hkey : (key == k) = true) : Represents layout (m.vacate i) (a.erase key) := by
  obtain ⟨rest, hrs, hset⟩ := h.exists_rest hi
  obtain ⟨c, hces, -, -, hcs⟩ := h.invariant.vacate_cases hi
  have he : c.entry = none := by
    rcases hcs with ⟨rfl, -⟩ | ⟨rfl, -⟩ <;> rfl
  refine ⟨h.invariant.vacate hi, ?_⟩
  have hpm := hset c
  rw [he] at hpm
  rw [hces]
  exact hpm.trans (erase_perm hrs hkey).symm

theorem lookup_eq (hi : cellAt m.cells i = .value hash2 k v)
    (hkey : (key == k) = true) : a.lookup key = some v := by
  obtain ⟨rest, hrs, -⟩ := h.exists_rest hi
  exact lookup_of_perm hrs hkey

theorem contains_eq_true (hi : cellAt m.cells i = .value hash2 k v)
    (hkey : (key == k) = true) : a.contains key = true := by
  rw [contains_eq, h.lookup_eq hi hkey]
  rfl

/-- The answer of a search: no entry, or the cell with the entry of the key. -/
theorem findCell_cases (hc : m.capacity ≠ 0) (key : K) :
    (m.findCell layout key = .ok none ∧ a.contains key = false) ∨
    ∃ i hash2 k v, m.findCell layout key = .ok (some i) ∧
      cellAt m.cells i = .value hash2 k v ∧ (key == k) = true := by
  rcases h.invariant.placed.searchCell_spec (h.invariant.isPowerOfTwo hc)
    (h.invariant.exists_empty hc) key with ⟨hfd, hdf⟩ | hfd
  · exact .inl ⟨hfd, h.contains_eq_false hdf⟩
  · exact .inr hfd

theorem findKey_cases (key : K) :
    (m.findKey layout key = .ok none ∧ a.contains key = false) ∨
    ∃ i hash2 k v, m.findKey layout key = .ok (some i) ∧
      cellAt m.cells i = .value hash2 k v ∧ (key == k) = true := by
  rw [findKey]
  by_cases he : m.empty = true
  · rw [if_pos he]
    refine .inl ⟨rfl, h.contains_eq_false (fun entry hen => ?_)⟩
    have hsz : m.size = 0 := by simpa [HashMap.empty] using he
    rw [h.invariant.size_eq] at hsz
    rw [eq_nil_of_length_eq_zero hsz] at hen
    cases hen
  · rw [if_neg he]
    refine h.findCell_cases (h.invariant.capacity_ne_zero ?_) key
    simpa [HashMap.empty] using he

theorem findSlot_cases
    (hrm : m.numOccupiedSlots + 1 ≤ maxOccupancy m.capacity) (key : K) :
    (∃ i hash2 k v, m.findSlot layout key = .ok (.existing i) ∧
      cellAt m.cells i = .value hash2 k v ∧ (key == k) = true) ∨
    ∃ i reused, m.findSlot layout key = .ok (.vacant i reused) ∧
      ∃ hnew : a.contains key = false, ∀ v,
        Represents layout (m.fill layout i reused key v) (a.insert key v hnew) ∧
          (m.fill layout i reused key v).valueAt i = some v := by
  have hc : m.capacity ≠ 0 := by
    intro h0
    rw [h0] at hrm
    exact absurd hrm (not_succ_le_zero _)
  have hok : ValidCapacity layout m.capacity := h.invariant.capacity.resolve_left hc
  have hlim := maxOccupancy_lt hok
  rcases h.invariant.placed.searchSlot_spec (h.invariant.isPowerOfTwo hc)
    (h.invariant.exists_empty hc) key with hfd | ⟨i, reused, hfd, hce, hi⟩
  · exact .inl hfd
  · refine .inr ⟨i, reused, hfd, h.contains_eq_false hi.differs, fun v => ⟨?_, ?_⟩⟩
    · exact h.fill (by omega) hce hi v _
    · show (cellAt (m.cells.set i _) i).entry.map Prod.snd = some v
      rw [cellAt_set_self hi.lt]
      rfl

theorem find_eq (key : K) : m.find layout key = .ok (a.lookup key) := by
  rcases h.findKey_cases key with ⟨hfd, hno⟩ | ⟨i, hash2, k, v, hfd, hi, hkey⟩
  · rw [contains_eq, Option.isSome_eq_false_iff, Option.isNone_iff_eq_none] at hno
    rw [find, hfd, hno]
    rfl
  · rw [find, hfd, h.lookup_eq hi hkey, ← valueAt_eq hi]
    rfl

theorem existsKey_eq (key : K) :
    m.existsKey layout key = .ok (a.contains key) := by
  rcases h.findKey_cases key with ⟨hfd, hno⟩ | ⟨i, hash2, k, v, hfd, hi, hkey⟩
  · rw [existsKey, hfd, hno]
    rfl
  · rw [existsKey, hfd, h.contains_eq_true hi hkey]
    rfl

/-- What the inserting functions do first: the check for a rehash, and the search in the
table after it. -/
theorem insert_cases (key : K) :
    ∃ m' found, Represents layout m' a ∧
      (∀ {β : Type} (g : HashMap K V → Slot → Except Stop β),
        (do let m ← m.tryRehashOnInsert layout; g m (← m.findSlot layout key)) = g m' found) ∧
      ((∃ i hash2 k v, found = .existing i ∧ cellAt m'.cells i = .value hash2 k v ∧
          (key == k) = true) ∨
        ∃ i reused, found = .vacant i reused ∧ ∃ hnew : a.contains key = false, ∀ v,
          Represents layout (m'.fill layout i reused key v) (a.insert key v hnew) ∧
            (m'.fill layout i reused key v).valueAt i = some v) := by
  obtain ⟨m', hm', hinv, hpm, hrm⟩ := h.invariant.tryRehashOnInsert
  have h' := h.of_perm hinv hpm
  rcases h'.findSlot_cases hrm key with ⟨i, hash2, k, v, hfd, hcs⟩ | ⟨i, reused, hfd, hcs⟩
  · refine ⟨m', _, h', fun g => ?_, .inl ⟨i, hash2, k, v, rfl, hcs⟩⟩
    rw [hm']
    exact congrArg (· >>= g m') hfd
  · refine ⟨m', _, h', fun g => ?_, .inr ⟨i, reused, rfl, hcs⟩⟩
    rw [hm']
    exact congrArg (· >>= g m') hfd

theorem insertNew (key : K) (v : V) :
    ∃ m', m.insertNew layout key v = .ok ((a.insertNew key v).1, m') ∧
      Represents layout m' (a.insertNew key v).2 := by
  rw [FiniteMap.insertNew]
  obtain ⟨m', _, h', hfd, ⟨i, hash2, k, w, rfl, hi, hkey⟩ | ⟨i, reused, rfl, hnew, hfill⟩⟩ :=
    h.insert_cases key
  · rw [dif_neg (by rw [h'.contains_eq_true hi hkey]; simp)]
    exact ⟨m', hfd _, h'⟩
  · rw [dif_pos hnew]
    exact ⟨m'.fill layout i reused key v, hfd _, (hfill v).1⟩

theorem insertOrUpdate (key : K) (v : V) :
    ∃ m', m.insertOrUpdate layout key v = .ok ((a.insertOrUpdate key v).1, m') ∧
      Represents layout m' (a.insertOrUpdate key v).2 := by
  rw [FiniteMap.insertOrUpdate]
  obtain ⟨m', _, h', hfd, ⟨i, hash2, k, w, rfl, hi, hkey⟩ | ⟨i, reused, rfl, hnew, hfill⟩⟩ :=
    h.insert_cases key
  · rw [dif_neg (by rw [h'.contains_eq_true hi hkey]; simp)]
    exact ⟨m'.setValue i v, hfd _, h'.setValue hi hkey (fun _ => v)⟩
  · rw [dif_pos hnew]
    exact ⟨m'.fill layout i reused key v, hfd _, (hfill v).1⟩

theorem findOrConstructNew (key : K) (f : Unit → V) :
    ∃ m', m.findOrConstructNew layout key f = .ok ((a.findOrConstructNew key f).1, m') ∧
      Represents layout m' (a.findOrConstructNew key f).2 := by
  rw [FiniteMap.findOrConstructNew]
  obtain ⟨m', _, h', hfd, ⟨i, hash2, k, w, rfl, hi, hkey⟩ | ⟨i, reused, rfl, hnew, hfill⟩⟩ :=
    h.insert_cases key
  · rw [dif_neg (by rw [h'.contains_eq_true hi hkey]; simp), h'.lookup_eq hi hkey, ← valueAt_eq hi]
    exact ⟨m', hfd _, h'⟩
  · rw [dif_pos hnew]
    refine ⟨m'.fill layout i reused key (f ()), ?_, (hfill (f ())).1⟩
    rw [← (hfill (f ())).2]
    exact hfd _

theorem tryRehashOnRemove :
    ∃ m', m.tryRehashOnRemove layout = .ok m' ∧ Represents layout m' a := by
  obtain ⟨m', hm', hinv, hpm⟩ := h.invariant.tryRehashOnRemove
  exact ⟨m', hm', h.of_perm hinv hpm⟩

theorem contains_eq_false_of_empty (he : m.empty = true) (key : K) :
    a.contains key = false := by
  rcases h.findKey_cases key with ⟨-, hno⟩ | ⟨i, hash2, k, v, hfd, -⟩
  · exact hno
  · rw [findKey, if_pos he] at hfd
    cases hfd

theorem remove_cases (he : ¬ m.empty = true) (key : K) :
    ∃ m' found, Represents layout m' a ∧
      (∀ {β : Type} (g : HashMap K V → Option Nat → Except Stop β),
        (do let m ← m.tryRehashOnRemove layout; g m (← m.findCell layout key)) = g m' found) ∧
      ((found = none ∧ a.contains key = false) ∨
        ∃ i v, found = some i ∧ m'.valueAt i = some v ∧ a.contains key = true ∧
          a.lookup key = some v ∧ Represents layout (m'.vacate i) (a.erase key)) := by
  obtain ⟨m', hm', h'⟩ := h.tryRehashOnRemove
  have hsz : m'.size ≠ 0 := by
    rw [h'.size_eq, ← h.size_eq]
    simpa [HashMap.empty] using he
  rcases h'.findCell_cases (h'.invariant.capacity_ne_zero hsz) key with
    ⟨hfd, hno⟩ | ⟨i, hash2, k, v, hfd, hi, hkey⟩
  · refine ⟨m', _, h', fun g => ?_, .inl ⟨rfl, hno⟩⟩
    rw [hm']
    exact congrArg (· >>= g m') hfd
  · refine ⟨m', _, h', fun g => ?_, .inr ⟨i, v, rfl, valueAt_eq hi, h'.contains_eq_true hi hkey,
      h'.lookup_eq hi hkey, h'.vacate hi hkey⟩⟩
    rw [hm']
    exact congrArg (· >>= g m') hfd

theorem removeExisting (key : K) :
    (a.contains key = false ∧ m.removeExisting layout key = .error .halt) ∨
    (a.contains key = true ∧ ∃ m', m.removeExisting layout key = .ok (a.lookup key, m') ∧
      Represents layout m' (a.erase key)) := by
  rw [HashMap.removeExisting]
  by_cases he : m.empty = true
  · rw [if_pos he]
    exact .inl ⟨h.contains_eq_false_of_empty he key, rfl⟩
  · rw [if_neg he]
    obtain ⟨m', _, h', hfd, ⟨rfl, hno⟩ | ⟨i, v, rfl, hv, hsm, hlk, hvac⟩⟩ := h.remove_cases he key
    · exact .inl ⟨hno, hfd _⟩
    · rw [hlk, ← hv]
      exact .inr ⟨hsm, m'.vacate i, hfd _, hvac⟩

theorem removeIfExists (key : K) :
    ∃ m', m.removeIfExists layout key = .ok (a.lookup key, m') ∧
      Represents layout m' (a.erase key) := by
  rw [HashMap.removeIfExists]
  by_cases he : m.empty = true
  · have hno := h.contains_eq_false_of_empty he key
    rw [if_pos he, lookup_missing hno]
    exact ⟨m, rfl, h.erase_missing hno⟩
  · rw [if_neg he]
    obtain ⟨m', _, h', hfd, ⟨rfl, hno⟩ | ⟨i, v, rfl, hv, hsm, hlk, hvac⟩⟩ := h.remove_cases he key
    · rw [lookup_missing hno]
      exact ⟨m', hfd _, h'.erase_missing hno⟩
    · rw [hlk, ← hv]
      exact ⟨m'.vacate i, hfd _, hvac⟩

theorem dropIfExists (key : K) :
    ∃ m', m.dropIfExists layout key = .ok (a.contains key, m') ∧
      Represents layout m' (a.erase key) := by
  rw [HashMap.dropIfExists]
  by_cases he : m.empty = true
  · have hno := h.contains_eq_false_of_empty he key
    rw [if_pos he, hno]
    exact ⟨m, rfl, h.erase_missing hno⟩
  · rw [if_neg he]
    obtain ⟨m', _, h', hfd, ⟨rfl, hno⟩ | ⟨i, v, rfl, hv, hsm, hlk, hvac⟩⟩ := h.remove_cases he key
    · rw [hno]
      exact ⟨m', hfd _, h'.erase_missing hno⟩
    · rw [hsm]
      exact ⟨m'.vacate i, hfd _, hvac⟩

def retainEntry (func : K → V → Bool × V) (e : K × V) : Option (K × V) :=
  if (func e.1 e.2).1 then some (e.1, (func e.1 e.2).2) else none

variable (f : K → V → Bool × V)

omit h in
omit [EquivBEq K] in
theorem retainCell_cases (h : Invariant layout m) (hi : i < m.cells.length) :
    Invariant layout (retainCell f m i) ∧ ∃ c, (retainCell f m i).cells = m.cells.set i c ∧
        c.entry = (cellAt m.cells i).entry.bind (retainEntry f) := by
  have hsf : m.cells.set i (cellAt m.cells i) = m.cells := by
    rw [cellAt, getD_eq_getElem _ _ hi, set_getElem_self]
  rw [retainCell]
  cases hce : cellAt m.cells i with
  | empty => exact ⟨h, .empty, (hce ▸ hsf).symm, rfl⟩
  | valueRemoved => exact ⟨h, .valueRemoved, (hce ▸ hsf).symm, rfl⟩
  | value hash2 key v =>
    show Invariant layout (if (f key v).1 then _ else _) ∧
      ∃ c : Cell K V, (if (f key v).1 then _ else _ : HashMap K V).cells = _ ∧
        c.entry = retainEntry f (key, v)
    by_cases hkeep : (f key v).1 = true
    · have hset : m.setValue i (f key v).2 =
          { m with cells := m.cells.set i (.value hash2 key (f key v).2) } := by
        rw [HashMap.setValue, hce]
      rw [if_pos hkeep, retainEntry, if_pos hkeep, ← hset]
      refine ⟨h.setValue hce _, .value hash2 key (f key v).2, ?_, rfl⟩
      rw [hset]
    · obtain ⟨c, hces, -, -, hcs⟩ := h.vacate_cases hce
      have he : c.entry = none := by
        rcases hcs with ⟨rfl, -⟩ | ⟨rfl, -⟩ <;> rfl
      rw [if_neg hkeep, retainEntry, if_neg hkeep]
      exact ⟨h.vacate hce, c, hces, he⟩

omit h in
omit [EquivBEq K] in
theorem foldl_retainCell (h : Invariant layout m) {n : Nat}
    (hn : n ≤ m.cells.length) :
    ∃ m', (List.range n).foldl (retainCell f) m = m' ∧ Invariant layout m' ∧
      m'.cells.length = m.cells.length ∧
      (∀ j, n ≤ j → cellAt m'.cells j = cellAt m.cells j) ∧
      entriesOf (m'.cells.take n) = (entriesOf (m.cells.take n)).filterMap (retainEntry f) := by
  induction n with
  | zero => exact ⟨m, rfl, h, rfl, fun _ _ => rfl, rfl⟩
  | succ n ih =>
    obtain ⟨m', hm', hinv, hlen, hbh, hes⟩ := ih (by omega)
    have hlt : n < m'.cells.length := by omega
    obtain ⟨hinv', cell, hces, he⟩ := retainCell_cases f hinv hlt
    refine ⟨retainCell f m' n, ?_, hinv', ?_, ?_, ?_⟩
    · rw [range_succ, foldl_append, hm']
      rfl
    · rw [hces, length_set, hlen]
    · intro j hj
      rw [hces, cellAt_set_ne (by omega)]
      exact hbh j (by omega)
    · rw [hces, entriesOf_take_succ (by rwa [length_set]), take_set_of_le (le_refl n),
        cellAt_set_self hlt, he, hbh n (le_refl n), hes,
        entriesOf_take_succ (by omega), filterMap_append]
      cases (cellAt m.cells n).entry <;> rfl

theorem retain :
    ∃ m', m.retain layout f = .ok m' ∧ Represents layout m' (a.retain f) := by
  have hes : (a.retain f).entries = a.entries.filterMap (retainEntry f) := rfl
  rw [HashMap.retain]
  by_cases he : m.empty = true
  · refine ⟨m, if_pos he, h.invariant, ?_⟩
    have hsz : m.size = 0 := by simpa [HashMap.empty] using he
    have hnil : entriesOf m.cells = [] :=
      eq_nil_of_length_eq_zero (h.invariant.size_eq.symm.trans hsz)
    have hno : a.entries = [] := (hnil ▸ h.entries : [].Perm a.entries).nil_eq.symm
    rw [hes, hnil, hno]
    exact .refl _
  · rw [if_neg he]
    obtain ⟨m', hm', hinv, hlen, -, hfil⟩ :=
      foldl_retainCell f h.invariant (le_refl m.cells.length)
    rw [take_length, ← hlen, take_length] at hfil
    have h' : Represents layout m' (a.retain f) := by
      refine ⟨hinv, ?_⟩
      rw [hfil]
      exact h.entries.filterMap _
    rw [capacity, hm']
    exact h'.tryRehashOnRemove

omit [EquivBEq K] in
theorem clear : Represents layout m.clear empty := by
  rw [HashMap.clear]
  split
  · rename_i h0
    refine ⟨h.invariant, ?_⟩
    rw [eq_nil_of_length_eq_zero h0]
    exact .refl _
  · exact ⟨invariant_new layout m.hasher, .refl _⟩

theorem modify (key : K) (f : V → V) :
    ∃ m', m.modify layout key f = .ok m' ∧ Represents layout m' (a.modify key f) := by
  rw [HashMap.modify]
  rcases h.findKey_cases key with ⟨hfd, hno⟩ | ⟨i, hash2, k, v, hfd, hi, hkey⟩
  · rw [hfd]
    refine ⟨m, rfl, h.invariant, ?_⟩
    rw [modify_of_not_contains f hno]
    exact h.entries
  · rw [hfd]
    refine ⟨m.setValue i (f v), ?_, h.setValue hi hkey f⟩
    show Except.ok ((m.valueAt i).elim m (fun v => m.setValue i (f v))) = _
    rw [valueAt_eq hi]
    rfl

omit [EquivBEq K] in
theorem modifyAll (f : K → V → V) :
    Represents layout (m.modifyAll f) (a.mapValues f) := by
  have hes : entriesOf (m.modifyAll f).cells =
      (entriesOf m.cells).map (fun e => (e.1, f e.1 e.2)) := by
    rw [HashMap.modifyAll, entriesOf, entriesOf, filterMap_map, map_filterMap]
    refine filterMap_congr (fun c _ => ?_)
    cases c <;> rfl
  have hceAt : ∀ i, cellAt (m.modifyAll f).cells i = (cellAt m.cells i).mapValue f := by
    intro i
    show (m.cells.map (Cell.mapValue f)).getD i (Cell.mapValue f .empty) = _
    rw [getD_map]
    rfl
  have hocc : ∀ i, Occupied m.cells i → Occupied (m.modifyAll f).cells i := by
    intro i hi
    rw [Occupied, hceAt]
    rw [Occupied] at hi
    cases hce : cellAt m.cells i with
    | empty => exact absurd hce hi
    | valueRemoved | value hash2 key v => simp [Cell.mapValue]
  have hv : ∀ i hash2 key v, cellAt (m.modifyAll f).cells i = .value hash2 key v →
      ∃ w, cellAt m.cells i = .value hash2 key w := by
    intro i hash2 key v hi
    rw [hceAt] at hi
    cases hce : cellAt m.cells i with
    | empty | valueRemoved => rw [hce] at hi; cases hi
    | value hash2' key' w =>
      rw [hce] at hi
      cases hi
      exact ⟨w, rfl⟩
  have hlen : (m.modifyAll f).cells.length = m.cells.length := length_map _
  refine ⟨?_, by rw [hes]; exact h.entries.map _⟩
  constructor
  · constructor
    · rw [hes, pairwise_map]
      exact h.invariant.placed.distinct
    · intro i hash2 key v hi
      obtain ⟨w, hw⟩ := hv i hash2 key v hi
      exact h.invariant.placed.hash2_eq i hash2 key w hw
    · intro i hash2 key v hi
      obtain ⟨w, hw⟩ := hv i hash2 key v hi
      rw [hlen]
      exact (h.invariant.placed.reaches i hash2 key w hw).mono hocc
  · rw [capacity, hlen]
    exact h.invariant.capacity
  · rw [hes, length_map]
    exact h.invariant.size_eq
  · refine h.invariant.numOccupiedSlots_eq.trans ?_
    rw [HashMap.modifyAll, occupiedCount, occupiedCount, countP_map]
    refine countP_congr (fun c _ => ?_)
    cases c <;> rfl
  · rw [capacity, hlen]
    exact h.invariant.notFull

variable (cs : List (Cell K V))

omit h in
theorem foldlM_copyCell (h : Represents layout m a)
    (hne : (entriesOf cs ++ a.entries).Pairwise KeysDiffer) :
    ∃ m' a', cs.foldlM (copyCell layout) m = .ok m' ∧ Represents layout m' a' ∧
      a'.entries.Perm (entriesOf cs ++ a.entries) := by
  induction cs generalizing m a with
  | nil => exact ⟨m, a, rfl, h, .refl _⟩
  | cons c cs ih =>
    cases c with
    | empty | valueRemoved => exact ih h hne
    | value hash2 key v =>
      have hco : entriesOf (.value hash2 key v :: cs) = (key, v) :: entriesOf cs := rfl
      rw [hco] at hne ⊢
      rw [cons_append] at hne
      obtain ⟨hhd, -⟩ := pairwise_cons.1 hne
      have hnew : a.contains key = false := contains_eq_false_iff.2
        (fun e he => hhd e (mem_append_right _ he))
      obtain ⟨m', hm', h'⟩ := h.insertOrUpdate key v
      rw [FiniteMap.insertOrUpdate, dif_pos hnew] at hm' h'
      have hmid : (entriesOf cs ++ (a.insert key v hnew).entries).Perm
          ((key, v) :: (entriesOf cs ++ a.entries)) := perm_middle
      obtain ⟨m'', a'', hm'', h'', hpm⟩ := ih h' (hne.perm hmid.symm KeysDiffer.symm)
      refine ⟨m'', a'', ?_, h'', hpm.trans hmid⟩
      rw [foldlM_cons, copyCell, hm']
      exact hm''

theorem copy (hasher : Hasher K) :
    ∃ m', m.copy layout hasher = .ok m' ∧ Represents layout m' a := by
  obtain ⟨m', a', hm', h', hpm⟩ := foldlM_copyCell m.cells (represents_new layout hasher)
    (by rw [FiniteMap.empty, append_nil]; exact h.invariant.placed.distinct)
  rw [FiniteMap.empty, append_nil] at hpm
  exact ⟨m', hm', h'.invariant, h'.entries.trans (hpm.trans h.entries)⟩

theorem equalCell_eq [BEq V] (hash2 : Nat) (key : K) (v : V) :
    ∃ answer, equalCell layout m (.value hash2 key v) = .ok answer ∧
      (answer = true ↔ ∃ w, a.lookup key = some w ∧ (v == w) = true) := by
  rcases h.findKey_cases key with ⟨hfd, hno⟩ | ⟨i, hash2', k, w, hfd, hi, hkey⟩
  · refine ⟨false, ?_, ?_⟩
    · rw [equalCell, hfd]
      rfl
    · rw [lookup_missing hno]
      simp
  · refine ⟨v == w, ?_, ?_⟩
    · rw [equalCell, hfd]
      show Except.ok ((m.valueAt i).elim false (fun v' => !(v != v'))) = _
      rw [valueAt_eq hi]
      simp [bne]
    · rw [h.lookup_eq hi hkey]
      simp

theorem equalCells_eq [BEq V] :
    ∃ answer, equalCells layout m cs = .ok answer ∧ (answer = true ↔
        ∀ e ∈ entriesOf cs, ∃ w, a.lookup e.1 = some w ∧ (e.2 == w) = true) := by
  induction cs with
  | nil => exact ⟨true, rfl, by simp [entriesOf]⟩
  | cons c cs ih =>
    obtain ⟨r, hrs, hiff⟩ := ih
    cases c with
    | empty | valueRemoved => exact ⟨r, hrs, hiff⟩
    | value hash2 key v =>
      have hco : entriesOf (.value hash2 key v :: cs) = (key, v) :: entriesOf cs := rfl
      obtain ⟨first, hfst, hfstIff⟩ := h.equalCell_eq hash2 key v
      rw [hco, equalCells, hfst]
      cases first with
      | true =>
        refine ⟨r, hrs, ?_⟩
        rw [hiff, forall_mem_cons]
        exact (and_iff_right (hfstIff.1 rfl)).symm
      | false =>
        refine ⟨false, rfl, ?_⟩
        rw [forall_mem_cons]
        exact iff_of_false Bool.false_ne_true fun hall =>
          Bool.false_ne_true (hfstIff.2 hall.1)

theorem equal_eq [BEq V] {r : HashMap K V} {b : FiniteMap K V}
    (hr : Represents layout r b) :
    ∃ answer, m.equal layout r = .ok answer ∧ (answer = true ↔ a.Equal b) := by
  rw [equal, h.size_eq, hr.size_eq]
  by_cases hsz : a.size = b.size
  · rw [if_neg (not_not.2 hsz)]
    by_cases hemp : m.empty = true
    · refine ⟨true, if_pos hemp, ?_⟩
      have hz : m.size = 0 := by simpa [HashMap.empty] using hemp
      have hnil : a.entries = [] := eq_nil_of_length_eq_zero (h.size_eq.symm.trans hz)
      rw [equal_iff, hnil]
      simp [hsz]
    · rw [if_neg hemp]
      obtain ⟨answer, hans, hiff⟩ := hr.equalCells_eq m.cells
      refine ⟨answer, hans, ?_⟩
      rw [hiff, equal_iff, and_iff_right hsz]
      exact forall_congr' (fun e => imp_congr h.entries.mem_iff Iff.rfl)
  · refine ⟨false, if_pos hsz, ?_⟩
    rw [equal_iff]
    exact iff_of_false Bool.false_ne_true fun he => hsz he.1

omit h in
omit [BEq K] [EquivBEq K] in
theorem rawIteratorNext_eq :
    (rawIteratorNext cs = none ∧ entriesOf cs = []) ∨
    ∃ e r, rawIteratorNext cs = some (e, r) ∧ entriesOf cs = e :: entriesOf r ∧
      r.length < cs.length := by
  induction cs with
  | nil => exact .inl ⟨rfl, rfl⟩
  | cons c cs ih =>
    cases c with
    | value hash2 key v =>
      exact .inr ⟨(key, v), cs, rfl, rfl, lt_succ_self _⟩
    | empty | valueRemoved =>
      rcases ih with hno | ⟨e, r, hnx, hes, hlen⟩
      · exact .inl hno
      · exact .inr ⟨e, r, hnx, hes, lt_succ_of_lt hlen⟩

omit h in
omit [BEq K] [EquivBEq K] in
theorem iterElements_eq {fuel : Nat} (hf : cs.length < fuel) :
    iterElements fuel cs = entriesOf cs := by
  induction fuel generalizing cs with
  | zero => omega
  | succ fuel ih =>
    rw [iterElements]
    rcases rawIteratorNext_eq cs with ⟨hnx, hes⟩ | ⟨e, r, hnx, hes, hlen⟩
    · rw [hnx, hes]
    · rw [hnx, hes]
      show e :: iterElements fuel r = _
      rw [ih r (by omega)]

omit [EquivBEq K] in
theorem iter_perm : m.iter.Perm a.entries := by
  rw [HashMap.iter, capacity, iterElements_eq m.cells (lt_succ_self _)]
  exact h.entries

end Represents

end Ustlib
end USprache
