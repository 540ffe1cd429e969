import USprache.Ustlib.HashMapOperations

/-!
# The hash map refines a finite map

Runs of calls on a hash map and on a finite map side by side: the answers are the
same, the maps reached stand for each other, and every map reached keeps the
invariant of the table.
-/

namespace USprache

open List

namespace FiniteMap

variable {K V : Type} [BEq K]

def step (a : FiniteMap K V) :
    Ustlib.Operation K V → Except Ustlib.Stop (Ustlib.Response V × FiniteMap K V)
  | .insertNew key v => .ok (.bool (a.insertNew key v).1, (a.insertNew key v).2)
  | .insertOrUpdate key v => .ok (.bool (a.insertOrUpdate key v).1, (a.insertOrUpdate key v).2)
  | .findOrConstructNew key f =>
    .ok (.value (a.findOrConstructNew key f).1, (a.findOrConstructNew key f).2)
  | .removeExisting key =>
    if a.contains key then .ok (.value (a.lookup key), a.erase key) else .error .halt
  | .removeIfExists key => .ok (.value (a.lookup key), a.erase key)
  | .dropIfExists key => .ok (.bool (a.contains key), a.erase key)
  | .retain func => .ok (.none, a.retain func)
  | .clear => .ok (.none, empty)
  | .modify key f => .ok (.none, a.modify key f)
  | .modifyAll f => .ok (.none, a.mapValues f)
  | .copy _ => .ok (.none, a)

def run (a : FiniteMap K V) :
    List (Ustlib.Operation K V) → Except Ustlib.Stop (List (Ustlib.Response V) × FiniteMap K V)
  | [] => .ok ([], a)
  | op :: ops => do
    let (response, a) ← a.step op
    let (responses, a) ← run a ops
    pure (response :: responses, a)

end FiniteMap

namespace Ustlib

open HashMap

variable {K V : Type} [BEq K]

/-- Both stop in the same way, or give the same answer and maps that stand for each
other. -/
def Refines {R : Type} (layout : Layout) (c : Except Stop (R × HashMap K V))
    (s : Except Stop (R × FiniteMap K V)) : Prop :=
  match c, s with
  | .ok (r, m), .ok (r', a) => r = r' ∧ Represents layout m a
  | .error stop, .error stop' => stop = stop'
  | _, _ => False

variable [EquivBEq K] {layout : Layout} {m : HashMap K V}

theorem step_refines {a : FiniteMap K V} (h : Represents layout m a)
    (op : Operation K V) : Refines layout (m.step layout op) (a.step op) := by
  cases op with
  | insertNew key v =>
    obtain ⟨m', hm', h'⟩ := h.insertNew key v
    rw [step, hm']
    exact ⟨rfl, h'⟩
  | insertOrUpdate key v =>
    obtain ⟨m', hm', h'⟩ := h.insertOrUpdate key v
    rw [step, hm']
    exact ⟨rfl, h'⟩
  | findOrConstructNew key constructionF =>
    obtain ⟨m', hm', h'⟩ := h.findOrConstructNew key constructionF
    rw [step, hm']
    exact ⟨rfl, h'⟩
  | removeExisting key =>
    rw [step, FiniteMap.step]
    rcases h.removeExisting key with ⟨hno, hm'⟩ | ⟨hsm, m', hm', h'⟩
    · rw [hm', hno]
      exact rfl
    · rw [hm', if_pos hsm]
      exact ⟨rfl, h'⟩
  | removeIfExists key =>
    obtain ⟨m', hm', h'⟩ := h.removeIfExists key
    rw [step, hm']
    exact ⟨rfl, h'⟩
  | dropIfExists key =>
    obtain ⟨m', hm', h'⟩ := h.dropIfExists key
    rw [step, hm']
    exact ⟨rfl, h'⟩
  | retain func =>
    obtain ⟨m', hm', h'⟩ := h.retain func
    rw [step, hm']
    exact ⟨rfl, h'⟩
  | clear => exact ⟨rfl, h.clear⟩
  | modify key f =>
    obtain ⟨m', hm', h'⟩ := h.modify key f
    rw [step, hm']
    exact ⟨rfl, h'⟩
  | modifyAll f => exact ⟨rfl, h.modifyAll f⟩
  | copy hasher =>
    obtain ⟨m', hm', h'⟩ := h.copy hasher
    rw [step, hm']
    exact ⟨rfl, h'⟩

theorem represents_run {a : FiniteMap K V} (h : Represents layout m a)
    (ops : List (Operation K V)) : Refines layout (m.run layout ops) (a.run ops) := by
  induction ops generalizing m a with
  | nil => exact ⟨rfl, h⟩
  | cons op ops ih =>
    have hst := step_refines h op
    rw [run, FiniteMap.run]
    cases hc : m.step layout op with
    | error stop =>
      cases hs : a.step op with
      | error stop' =>
        rw [hc, hs] at hst
        exact hst
      | ok s => rw [hc, hs] at hst; exact hst.elim
    | ok c =>
      cases hs : a.step op with
      | error stop' => rw [hc, hs] at hst; exact hst.elim
      | ok s =>
        rw [hc, hs] at hst
        obtain ⟨hres, h'⟩ := hst
        have hrs := ih h'
        show Refines layout (c.2.run layout ops >>= fun r => pure (c.1 :: r.1, r.2))
          (s.2.run ops >>= fun r => pure (s.1 :: r.1, r.2))
        cases hcr : c.2.run layout ops with
        | error stop =>
          cases hsr : s.2.run ops with
          | error stop' => rw [hcr, hsr] at hrs; exact hrs
          | ok r' => rw [hcr, hsr] at hrs; exact hrs.elim
        | ok r =>
          cases hsr : s.2.run ops with
          | error stop' => rw [hcr, hsr] at hrs; exact hrs.elim
          | ok r' =>
            rw [hcr, hsr] at hrs
            exact ⟨by rw [hres, hrs.1], hrs.2⟩

variable {hasher : Hasher K}

theorem represents_of_run {ops : List (Operation K V)}
    {responses : List (Response V)}
    (hrun : HashMap.run layout { hasher } ops = .ok (responses, m)) :
    ∃ a, FiniteMap.empty.run ops = .ok (responses, a) ∧ Represents layout m a := by
  have h := represents_run (represents_new layout hasher) ops
  rw [hrun] at h
  cases ha : (FiniteMap.empty : FiniteMap K V).run ops with
  | error stop => rw [ha] at h; exact h.elim
  | ok reached =>
    rw [ha] at h
    exact ⟨reached.2, by rw [h.1], h.2⟩

omit [EquivBEq K] in
theorem countP_control (h : Invariant layout m) :
    m.cells.countP (fun c => c.control != 0b10000000) = occupiedCount m.cells := by
  refine countP_congr (fun c hce => ?_)
  cases c with
  | empty => rfl
  | valueRemoved => exact Iff.rfl
  | value hash2 key v =>
    obtain ⟨i, hi, hget⟩ := mem_iff_getElem.1 hce
    have hceAt : cellAt m.cells i = .value hash2 key v := by
      rw [cellAt, getD_eq_getElem _ _ hi, hget]
    have hlt := hash2Of_lt layout m.hasher key
    rw [← h.placed.hash2_eq i hash2 key v hceAt] at hlt
    have hne : hash2 ≠ 0b10000000 := by omega
    simp [Cell.control, Cell.isEmpty, hne]

/-- In every map that calls can lead to, the capacity is valid, the counters are
right and the table is not full, so that no call and no lookup diverges; and a
rehash leaves room for all keys under the load limit. -/
theorem run_occupancy {ops : List (Operation K V)}
    {responses : List (Response V)} {m : HashMap K V}
    (hrun : HashMap.run layout { hasher } ops = .ok (responses, m)) :
    (m.capacity = 0 ∨ m.capacity.isPowerOfTwo ∧ layout.minNonZeroCapacity ≤ m.capacity) ∧
    m.numOccupiedSlots = m.cells.countP (fun cell => cell.control != 0b10000000) ∧
    m.size ≤ m.numOccupiedSlots ∧
    (m.capacity ≠ 0 → ∃ i < m.capacity, cellAt m.cells i = .empty) ∧
    (∀ op, m.step layout op ≠ .error .diverge) ∧
    (∀ key, m.findKey layout key ≠ .error .diverge) ∧
    ∀ newSize, m.size ≤ newSize → ∃ m', m.rehash layout newSize = .ok m' ∧ m'.size = m.size ∧
        m'.size + 1 ≤ maxOccupancy m'.capacity := by
  obtain ⟨a, -, h⟩ := represents_of_run hrun
  refine ⟨h.invariant.capacity, ?_, h.invariant.size_le, h.invariant.exists_empty, ?_, ?_, ?_⟩
  · rw [countP_control h.invariant, h.invariant.numOccupiedSlots_eq]
  · intro op hdiverge
    have hstep := step_refines h op
    rw [hdiverge] at hstep
    cases op <;> try exact hstep.elim
    case removeExisting key =>
      rw [FiniteMap.step] at hstep
      split at hstep
      · exact hstep.elim
      · cases hstep
  · intro key hdiverge
    rcases h.findKey_cases key with ⟨hfound, -⟩ | ⟨i, hash2, k, v, hfound, -⟩ <;>
      rw [hfound] at hdiverge <;> cases hdiverge
  · intro newSize hle
    obtain ⟨m', hm', hinv, hperm, hcapacity, -⟩ := h.invariant.rehash hle
    have hsize : m'.size = m.size := by
      rw [hinv.size_eq, hperm.length_eq, h.invariant.size_eq]
    have hlarge := rehashCapacity_large layout newSize
    refine ⟨m', hm', hsize, ?_⟩
    rw [hcapacity]
    omega

def wideLayout : Layout := ⟨.bytes8, 4, ⟨2, rfl⟩⟩

def zeroHasher : Hasher Nat := ⟨fun _ => 0, fun _ _ _ => rfl⟩

def collidingCalls : List (Operation Nat Nat) :=
  [.insertNew 1 10, .insertNew 2 20, .insertNew 3 30, .dropIfExists 2, .insertOrUpdate 3 31]

theorem run_occupancy_colliding :
    ∃ responses m, HashMap.run wideLayout { hasher := zeroHasher } collidingCalls =
        .ok (responses, m) ∧
      m.size ≤ m.numOccupiedSlots ∧ m.step wideLayout (.removeExisting 3) ≠ .error .diverge := by
  obtain ⟨reached, hrun⟩ : ∃ reached, run wideLayout { hasher := zeroHasher }
      collidingCalls = .ok reached := ⟨_, rfl⟩
  have h := run_occupancy hrun
  exact ⟨reached.1, reached.2, hrun, h.2.2.1, h.2.2.2.2.1 (.removeExisting 3)⟩

theorem Placed.cell_unique {cs : List (Cell K V)}
    (h : Placed layout hasher cs) {i j hash2 hash2' : Nat} {key key' : K} {v v' : V}
    (hi : cellAt cs i = .value hash2 key v) (hj : cellAt cs j = .value hash2' key' v')
    (hkey : (key == key') = true) : i = j := by
  have hilt : i < cs.length := lt_length_of_occupied (by rw [Occupied, hi]; simp)
  have hjlt : j < cs.length := lt_length_of_occupied (by rw [Occupied, hj]; simp)
  have hne := pairwise_iff_getElem.1 (pairwise_filterMap.1 h.distinct)
  rw [cellAt, getD_eq_getElem _ _ hilt] at hi
  rw [cellAt, getD_eq_getElem _ _ hjlt] at hj
  rcases Nat.lt_trichotomy i j with hlt | heq | hgt
  · have hdf : (key == key') = false := hne i j hilt hjlt hlt (key, v)
      (by rw [hi]; rfl) (key', v') (by rw [hj]; rfl)
    rw [hdf] at hkey
    cases hkey
  · exact heq
  · have hdf : (key' == key) = false := hne j i hjlt hilt hgt (key', v')
      (by rw [hj]; rfl) (key, v) (by rw [hi]; rfl)
    rw [BEq.symm hkey] at hdf
    cases hdf

/-- Calls on a hash map and on a finite map, both empty at first: a call halts on
the one if it does on the other, the answers are the same, and every query of the
map that is reached gives what the finite map gives. -/
theorem run_refines_finiteMap [BEq V] (layout : Layout) (hasher : Hasher K)
    (ops : List (Operation K V)) :
    match (FiniteMap.empty : FiniteMap K V).run ops with
    | .error stop => HashMap.run layout { hasher } ops = .error stop
    | .ok (responses, a) =>
      ∃ m, HashMap.run layout { hasher } ops = .ok (responses, m) ∧
        (∀ key, m.find layout key = .ok (a.lookup key)) ∧
        (∀ key, m.existsKey layout key = .ok (a.contains key)) ∧
        m.size = a.size ∧
        m.empty = (a.size == 0) ∧
        m.iter.Perm a.entries ∧
        (∀ i j hash2 hash2' key key' v v', cellAt m.cells i = .value hash2 key v →
          cellAt m.cells j = .value hash2' key' v' → (key == key') = true → i = j) ∧
        ∀ (hasher' : Hasher K) (ops' : List (Operation K V)) (responses' : List (Response V))
          (a' : FiniteMap K V) (m' : HashMap K V),
          FiniteMap.empty.run ops' = .ok (responses', a') →
          HashMap.run layout { hasher := hasher' } ops' = .ok (responses', m') →
          ∃ answer, m.equal layout m' = .ok answer ∧ (answer = true ↔ a.Equal a') := by
  have h := represents_run (represents_new layout hasher) ops
  cases ha : (FiniteMap.empty : FiniteMap K V).run ops with
  | error stop =>
    cases hm : run layout { hasher } ops with
    | error stop' => rw [ha, hm] at h; exact congrArg Except.error h
    | ok reached => rw [ha, hm] at h; exact h.elim
  | ok reached =>
    cases hm : run layout { hasher } ops with
    | error stop' => rw [ha, hm] at h; exact h.elim
    | ok reached' =>
      obtain ⟨responses', m⟩ := reached'
      rw [ha, hm] at h
      obtain ⟨rfl, h⟩ := h
      refine ⟨m, rfl, h.find_eq, h.existsKey_eq, h.size_eq, ?_, h.iter_perm, ?_, ?_⟩
      · rw [empty, h.size_eq]
      · intro i j hash2 hash2' key key' v v' hi hj hkey
        exact h.invariant.placed.cell_unique hi hj hkey
      · intro hasher' ops' responses' a' m' ha' hm'
        obtain ⟨b, hb, hrepresents⟩ := represents_of_run hm'
        rw [ha'] at hb
        cases hb
        exact h.equal_eq hrepresents

theorem run_refines_finiteMap_colliding :
    ∃ responses m, HashMap.run wideLayout { hasher := zeroHasher } collidingCalls =
        .ok (responses, m) ∧
      m.find wideLayout 3 = .ok (some 31) ∧ m.find wideLayout 2 = .ok none ∧ m.size = 2 := by
  obtain ⟨m, hrun, hfind, -, hsize, -⟩ := run_refines_finiteMap wideLayout zeroHasher collidingCalls
  exact ⟨_, m, hrun, hfind 3, hfind 2, hsize⟩

end Ustlib
end USprache
