import USprache.Ustlib.StringBase

/-!
# The memory of a string

What the accesses to places and the loops over them do, for a pointer to places that hold
given chars.
-/

namespace USprache.Ustlib.StringBase

open List

variable {L : StringLayout} {p q : Pointer L} {values others : List L.Value}

def room (p : Pointer L) : Nat :=
  match p with
  | none => 0
  | some block => block.bytes

def cell (p : Pointer L) (k : Nat) : Option L.Value :=
  match p with
  | none => none
  | some block => block.cells k

/-- The first places behind the pointer hold these chars. -/
def Holds (p : Pointer L) (values : List L.Value) : Prop :=
  ∀ k value, values[k]? = some value → cell p k = some value

def HasRoom (p : Pointer L) (n : Nat) : Prop := n * L.elementSize ≤ room p

/-- The pointers point to blocks of the same size, or both to nothing. -/
def SameBlock (p q : Pointer L) : Prop := p.map (·.bytes) = q.map (·.bytes)

variable {n : Nat} {value : L.Value} {i : Nat}

theorem HasRoom.mono {m : Nat} (hrm : HasRoom p n) (h : m ≤ n) : HasRoom p m :=
  le_trans (Nat.mul_le_mul_right _ h) hrm

theorem SameBlock.room (h : SameBlock p q) : room p = room q := by
  cases p with
  | none =>
    cases q with
    | none => rfl
    | some => cases h
  | some =>
    cases q with
    | none => cases h
    | some => exact Option.some.inj h

theorem elementSize_pos : 0 < L.elementSize := by
  unfold StringLayout.elementSize
  cases L.charType <;> decide

theorem HasRoom.exists_block (hrm : HasRoom p (n + 1)) :
    ∃ block, p = some block ∧ (n + 1) * L.elementSize ≤ block.bytes := by
  cases p with
  | none => exact absurd hrm (Nat.not_le.2 (Nat.mul_pos n.succ_pos elementSize_pos))
  | some block => exact ⟨block, rfl, hrm⟩

theorem get_ok (hp : Holds p values) (hrm : HasRoom p values.length) {k : Nat}
    (hk : values[k]? = some value) : get p k = .ok value := by
  obtain ⟨hlt, -⟩ := List.getElem?_eq_some_iff.1 hk
  obtain ⟨block, rfl, hbs⟩ := (hrm.mono hlt : HasRoom p (k + 1)).exists_block
  have hce : block.cells k = some value := hp k value hk
  show (if _ then _ else _) = _
  rw [if_pos hbs, hce]

structure Stored (p : Pointer L) (i : Nat) (value : L.Value) (q : Pointer L) : Prop where
  same : SameBlock p q
  cell_self : cell q i = some value
  cell_of_ne : ∀ k, k ≠ i → cell q k = cell p k

theorem put_ok (hrm : HasRoom p (i + 1)) (value : L.Value) :
    ∃ q, put p i value = .ok q ∧ Stored p i value q := by
  obtain ⟨block, rfl, hbs⟩ := hrm.exists_block
  exact ⟨some (block.write i value), if_pos hbs, rfl, if_pos rfl, fun k hk => if_neg hk⟩

theorem Holds.nil (p : Pointer L) : Holds p [] := by
  intro k value h
  cases h

theorem Holds.take (hp : Holds p values) (n : Nat) : Holds p (values.take n) := by
  intro k value hk
  rw [getElem?_take] at hk
  split at hk
  · exact hp k value hk
  · cases hk

theorem Stored.holds_append (hq : Stored p values.length value q)
    (hp : Holds p values) : Holds q (values ++ [value]) := by
  intro k v hk
  by_cases hla : k = values.length
  · subst hla
    rw [getElem?_concat_length] at hk
    rw [hq.cell_self, hk]
  · have hlt : k < values.length := by
      obtain ⟨hlt, -⟩ := List.getElem?_eq_some_iff.1 hk
      rw [length_append, length_singleton] at hlt
      omega
    rw [getElem?_append_left hlt] at hk
    rw [hq.cell_of_ne k hla]
    exact hp k v hk

theorem Stored.holds_set (hq : Stored p i value q)
    (hp : Holds p values) : Holds q (values.set i value) := by
  intro k v hk
  rw [getElem?_set] at hk
  split at hk
  · rename_i hik
    subst hik
    split at hk
    · rw [hq.cell_self, hk]
    · cases hk
  · rename_i hik
    rw [hq.cell_of_ne k (fun h => hik h.symm)]
    exact hp k v hk

theorem SameBlock.hasRoom (h : SameBlock p q) (hrm : HasRoom p n) : HasRoom q n := by
  rw [HasRoom, ← h.room]
  exact hrm

theorem storeAt_ok (others : List L.Value) (hp : Holds p values)
    (hrm : HasRoom p (values.length + others.length)) :
    ∃ q, storeAt p values.length others = .ok q ∧ Holds q (values ++ others) ∧ SameBlock p q := by
  induction others generalizing p values with
  | nil => exact ⟨p, rfl, by rwa [append_nil], rfl⟩
  | cons value others ih =>
    rw [length_cons] at hrm
    obtain ⟨p', hput, hstd⟩ := put_ok (hrm.mono (by omega) : HasRoom p (values.length + 1)) value
    have hlen : (values ++ [value]).length = values.length + 1 := by
      rw [length_append, length_singleton]
    obtain ⟨q, hlp, hh, heq⟩ := ih (hstd.holds_append hp) (hstd.same.hasRoom (hrm.mono (by omega)))
    refine ⟨q, ?_, ?_, hstd.same.trans heq⟩
    · rw [storeAt, hput]
      rwa [hlen] at hlp
    · rwa [append_assoc] at hh

theorem copyLoop_eq {src : Pointer L} (hsrc : Holds src others) (hrm : HasRoom src others.length)
    {j : Nat} (hn : j + n = others.length) :
    copyLoop p i src j n = storeAt p i (others.drop j) := by
  induction n generalizing p i j with
  | zero =>
    rw [drop_eq_nil_of_le (by omega)]
    rfl
  | succ n ih =>
    have hj : j < others.length := by omega
    have hget := get_ok hsrc hrm (getElem?_eq_getElem hj)
    rw [drop_eq_getElem_cons hj, copyLoop, hget]
    show (put p i _ >>= _) = (put p i _ >>= _)
    congr 1
    funext p'
    exact ih (by omega)

theorem load_eq (hp : Holds p values) (hrm : HasRoom p values.length)
    (hn : i + n = values.length) : load p i n = .ok (values.drop i) := by
  induction n generalizing i with
  | zero =>
    rw [drop_eq_nil_of_le (by omega)]
    rfl
  | succ n ih =>
    have hi : i < values.length := by omega
    have hget := get_ok hp hrm (getElem?_eq_getElem hi)
    rw [drop_eq_getElem_cons hi, load, hget]
    show (load p (i + 1) n >>= _) = _
    rw [ih (by omega)]
    rfl

theorem bytesOf_eq (h : n * L.elementSize < L.sizes) : bytesOf L n = n * L.elementSize :=
  Nat.mod_eq_of_lt h

theorem bytesOf_div (h : n * L.elementSize < L.sizes) : bytesOf L n / L.elementSize = n := by
  rw [bytesOf_eq h, Nat.mul_div_cancel n elementSize_pos]

theorem length_lt_sizes (h : n * L.elementSize < L.sizes) : n < L.sizes :=
  lt_of_le_of_lt (Nat.le_mul_of_pos_right n elementSize_pos) h

structure Range.Represents (range : Range L) (values : List L.Value) : Prop where
  size_eq : range.size = values.length
  holds : Holds range.data values
  hasRoom : HasRoom range.data values.length
  bytes_lt : values.length * L.elementSize < L.sizes

theorem arrayRange_represents (h : values.length * L.elementSize < L.sizes) :
    (arrayRange values).Represents values where
  size_eq := rfl
  holds _ _ hk := hk
  hasRoom := le_refl _
  bytes_lt := h

theorem Range.Represents.subrange {r : Range L} (hr : r.Represents values) (i j : Nat) :
    (r.subrange i j = .error .halt ∧ ¬(i ≤ j ∧ j ≤ values.length)) ∨
      ∃ part, r.subrange i j = .ok part ∧ (i ≤ j ∧ j ≤ values.length) ∧
        part.Represents ((values.drop i).take (j - i)) := by
  unfold Range.subrange
  by_cases hij : i > j
  · exact .inl ⟨if_pos hij, fun h => by omega⟩
  rw [if_neg hij]
  by_cases hj : j > r.size
  · exact .inl ⟨if_pos hj, fun h => by have := hr.size_eq; omega⟩
  rw [if_neg hj]
  have hle : i ≤ j ∧ j ≤ values.length := by
    have := hr.size_eq
    omega
  have hlen : ((values.drop i).take (j - i)).length = j - i := by
    rw [length_take, length_drop]
    omega
  refine .inr ⟨_, rfl, hle, hlen.symm, ?_, ?_, ?_⟩
  · intro k value hk
    rw [getElem?_take] at hk
    split at hk
    · rw [getElem?_drop] at hk
      have hce := hr.holds (i + k) value hk
      cases hdata : r.data with
      | none | some block => rw [hdata] at hce; exact hce
    · cases hk
  · rw [hlen]
    have hrm := hr.hasRoom.mono hle.2
    cases hdata : r.data with
    | none =>
      rw [hdata] at hrm
      exact le_trans (Nat.mul_le_mul_right _ (Nat.sub_le j i)) hrm
    | some block =>
      rw [hdata] at hrm
      show (j - i) * L.elementSize ≤ block.bytes - i * L.elementSize
      rw [Nat.sub_mul]
      exact Nat.sub_le_sub_right hrm _
  · exact lt_of_le_of_lt (Nat.mul_le_mul_right _ (by omega)) hr.bytes_lt

theorem memoryCopyAligned_ok {r : Range L} (hr : r.Represents others) (hp : Holds p values)
    (hrm : HasRoom p (values.length + others.length)) :
    ∃ q, memoryCopyAligned p values.length r.data (bytesOf L r.size) = .ok q ∧
      Holds q (values ++ others) ∧ SameBlock p q := by
  obtain ⟨q, hsto, hh, heq⟩ := storeAt_ok others hp hrm
  refine ⟨q, ?_, hh, heq⟩
  unfold memoryCopyAligned
  rw [hr.size_eq, bytesOf_div hr.bytes_lt, copyLoop_eq hr.holds hr.hasRoom (zero_add _)]
  exact hsto

theorem eq_of_bytes (c : CharType) {x y : Nat} (hx : x < 2 ^ (8 * c.size))
    (hy : y < 2 ^ (8 * c.size))
    (h : (List.range c.size).map (fun k => x / 256 ^ k % 256) =
      (List.range c.size).map (fun k => y / 256 ^ k % 256)) : x = y := by
  cases c with
  | char8 =>
    simp only [CharType.size, range_succ, range_zero, nil_append, map_cons, cons.injEq] at h hx hy
    omega
  | char16 | char32 =>
    simp only [CharType.size, range_succ, range_zero, nil_append, cons_append,
      map_cons, cons.injEq, pow_zero, Nat.div_one] at h hx hy
    omega

theorem valueBytes_injective {a b : L.Value} (h : valueBytes a = valueBytes b) : a = b :=
  Fin.ext (eq_of_bytes L.charType a.isLt b.isLt h)

theorem length_valueBytes (value : L.Value) : (valueBytes value).length = L.elementSize := by
  rw [valueBytes, length_map, length_range]

/-- Chars are equal if their bytes are: all chars have the same number of bytes. -/
theorem flatMap_valueBytes_inj (h : values.flatMap valueBytes = others.flatMap valueBytes) :
    values = others := by
  induction values generalizing others with
  | nil =>
    cases others with
    | nil => rfl
    | cons b others =>
      have hlen := congrArg length h
      rw [flatMap_cons, length_append, length_valueBytes] at hlen
      have := elementSize_pos (L := L)
      simp only [flatMap_nil, length_nil] at hlen
      omega
  | cons a values ih =>
    cases others with
    | nil =>
      have hlen := congrArg length h
      rw [flatMap_cons, length_append, length_valueBytes] at hlen
      have := elementSize_pos (L := L)
      simp only [flatMap_nil, length_nil] at hlen
      omega
    | cons b others =>
      obtain ⟨hab, hrs⟩ := append_inj h (by rw [length_valueBytes, length_valueBytes])
      rw [valueBytes_injective hab, ih hrs]

theorem memoryEquals_eq (hp : Holds p values) (hrm : HasRoom p values.length)
    (hq : Holds q others) (hrm' : HasRoom q others.length) (hlen : values.length = others.length)
    (hbs : values.length * L.elementSize < L.sizes) :
    memoryEquals p q (bytesOf L values.length) = .ok (decide (values = others)) := by
  unfold memoryEquals
  rw [bytesOf_div hbs, load_eq hp hrm (zero_add _), hlen, load_eq hq hrm' (zero_add _)]
  show Except.ok _ = _
  congr 1
  rw [drop_zero, drop_zero, Bool.eq_iff_iff, beq_iff_eq, decide_eq_true_iff]
  exact ⟨flatMap_valueBytes_inj, fun h => by rw [h]⟩

end USprache.Ustlib.StringBase
