import USprache.Ustlib.StringMemory
import USprache.Ustlib.VectorRefinement

/-!
# Strings refine lists

A string represents a list of chars.  Each method turns the represented list into the one
that the corresponding list operation gives, or stops because there is no memory for the
result.  The comparisons are those of the lists.
-/

namespace USprache.Ustlib.StringBase

open List Nat

open Library (Meets)
open USprache.Ustlib.Vector (Returns Grows addOverflowCheckHalt mulOverflowCheckHalt
  addOverflowCheckHalt_returns mulOverflowCheckHalt_returns ensuredCapacity ensuredCapacity_some
  resizedList)

variable {L : StringLayout} {s other : StringBase L} {values others : List L.Value} {n : Nat}

/-- The string consists of exactly these chars, and its block is as large as its capacity. -/
structure Represents (s : StringBase L) (values : List L.Value) : Prop where
  size_eq : s.size = values.length
  size_le : s.size ≤ s.capacity
  null_iff : s.ptr = none ↔ s.capacity = 0
  room_eq : room s.ptr = s.capacity * L.elementSize
  room_lt : room s.ptr < L.sizes
  holds : Holds s.ptr values

variable {m newSz : Nat} {source : Range L} {parts : List (Range L)}
    {contents : List (List L.Value)}

variable (hs : s.Represents values)

include hs

theorem Represents.hasRoom (hm : m ≤ s.capacity) : HasRoom s.ptr m := by
  rw [HasRoom, hs.room_eq]
  exact mul_le_mul_right _ hm

theorem Represents.capacity_lt : s.capacity < L.sizes :=
  length_lt_sizes (hs.room_eq ▸ hs.room_lt)

theorem Represents.length_le : values.length ≤ s.capacity :=
  hs.size_eq ▸ hs.size_le

theorem Represents.bytes_lt :
    values.length * L.elementSize < L.sizes := by
  refine lt_of_le_of_lt ?_ hs.room_lt
  rw [hs.room_eq]
  exact mul_le_mul_right _ hs.length_le

theorem Represents.range : s.range.Represents values where
  size_eq := hs.size_eq
  holds := hs.holds
  hasRoom := hs.hasRoom hs.length_le
  bytes_lt := hs.bytes_lt

omit hs in
theorem empty_represents : (empty : StringBase L).Represents [] where
  size_eq := rfl
  size_le := le_refl 0
  null_iff := ⟨fun _ => rfl, fun _ => rfl⟩
  room_eq := (zero_mul _).symm
  room_lt := Nat.two_pow_pos _
  holds := .nil _

theorem Represents.changed {q : Pointer L} (heq : SameBlock s.ptr q)
    (hh : Holds q others) (hm : m = others.length) (hle : m ≤ s.capacity) :
    ({ s with ptr := q, size := m } : StringBase L).Represents others where
  size_eq := hm
  size_le := hle
  null_iff := by
    rw [← hs.null_iff]
    show q = none ↔ s.ptr = none
    rw [← Option.map_eq_none_iff (f := Block.bytes), ← heq, Option.map_eq_none_iff]
  room_eq := by
    show room q = s.capacity * L.elementSize
    rw [← heq.room, hs.room_eq]
  room_lt := by
    show room q < L.sizes
    rw [← heq.room]
    exact hs.room_lt
  holds := hh

theorem Represents.cut (hm : m ≤ values.length) :
    ({ s with size := m } : StringBase L).Represents (values.take m) :=
  hs.changed rfl (hs.holds.take m) (by rw [length_take, min_eq_left hm])
    (le_trans hm hs.length_le)

omit hs in
theorem represents_block {block : Block L} {capacity : Nat} (hm : m = values.length)
    (hle : m ≤ capacity) (hpos : capacity ≠ 0) (hbs : block.bytes = capacity * L.elementSize)
    (hlt : block.bytes < L.sizes) (hh : Holds (some block) values) :
    ({ ptr := some block, size := m, capacity := capacity } : StringBase L).Represents values where
  size_eq := hm
  size_le := hle
  null_iff := ⟨fun h => (by cases h), fun h => absurd h hpos⟩
  room_eq := hbs
  room_lt := hlt
  holds := hh

/-! ## Memory -/

section

omit hs

theorem memoryAllocate_returns (sizeBytes : Nat) :
    Returns (memoryAllocate n sizeBytes : Outcome (Block L × Nat)) fun result =>
      result.1.bytes = sizeBytes := by
  unfold memoryAllocate
  split
  · exact rfl
  · split
    · exact rfl
    · exact rfl

theorem memoryReallocate_returns {p : Pointer L} (hp : Holds p values) {sizeBytes : Nat}
    (hfit : values.length * L.elementSize ≤ sizeBytes) :
    Returns (memoryReallocate p n sizeBytes) fun result =>
      result.1.bytes = sizeBytes ∧ Holds (some result.1) values := by
  refine .bind (memoryAllocate_returns sizeBytes) ?_
  rintro ⟨block, n'⟩ hbs
  cases p with
  | none =>
    refine ⟨hbs, ?_⟩
    intro k value hk
    cases hp k value hk
  | some old =>
    refine ⟨hbs, ?_⟩
    intro k value hk
    obtain ⟨hlt, -⟩ := List.getElem?_eq_some_iff.1 hk
    have hkpt : (k + 1) * L.elementSize ≤ sizeBytes :=
      le_trans (mul_le_mul_right _ hlt) hfit
    exact (if_pos hkpt).trans (hp k value hk)

theorem firstAllocationSize_spec :
    0 < L.firstAllocationSize ∧ L.firstAllocationSize * L.elementSize < L.sizes := by
  have hsiz : 16 < L.sizes := by
    unfold StringLayout.sizes ElementLayout.sizeTypeBits
    split <;> decide
  have hsz : L.charType.size = 1 ∨ L.charType.size = 2 ∨ L.charType.size = 4 := by
    cases L.charType with
    | char8 => exact .inl rfl
    | char16 => exact .inr (.inl rfl)
    | char32 => exact .inr (.inr rfl)
  have hfst : L.firstAllocationSize = 16 / L.charType.size := by
    show (if L.charType.size = 0 then _ else if L.charType.size ≥ 16 then _ else 16 / L.charType.size) = _
    rw [if_neg (by omega), if_neg (by omega)]
  rw [hfst, StringLayout.elementSize]
  rcases hsz with h | h | h
  · rw [h]
    exact ⟨by decide, hsiz⟩
  · rw [h]
    exact ⟨by decide, hsiz⟩
  · rw [h]
    exact ⟨by decide, hsiz⟩

theorem first_capacity_pos (m : Nat) : max L.firstAllocationSize m ≠ 0 := by
  have := (firstAllocationSize_spec (L := L)).1
  omega

end

theorem Represents.eq_nil (h : s.capacity = 0) : values = [] := by
  have := hs.length_le
  exact eq_nil_of_length_eq_zero (by omega)

theorem Represents.ensureCapacity
    (hnew : newSz < L.sizes) (hgr : Grows L.elements s.capacity newSz) :
    Returns (s.ensureCapacity n newSz) fun result =>
      result.1.Represents values ∧ result.1.size = s.size ∧ newSz ≤ result.1.capacity := by
  obtain ⟨capacity, hens⟩ := hgr.ensuredCapacity hs.capacity_lt
  have hle := (ensuredCapacity_some hs.capacity_lt hnew hens).1
  unfold StringBase.ensureCapacity
  unfold Vector.ensuredCapacity at hens
  split
  · exact ⟨hs, rfl, ‹_›⟩
  rename_i hlt
  rw [if_neg hlt] at hens
  split
  · rename_i hz
    obtain rfl := hs.eq_nil hz
    refine .bind (mulOverflowCheckHalt_returns _ _) ?_
    rintro sizeBytes ⟨hbs, hbs_lt⟩
    refine .bind (memoryAllocate_returns sizeBytes) ?_
    rintro ⟨block, n'⟩ hbl
    obtain rfl : block.bytes = sizeBytes := hbl
    refine ⟨represents_block hs.size_eq ?_ (first_capacity_pos _) hbs hbs_lt (.nil _), rfl,
      le_max_right _ _⟩
    rw [hs.size_eq]
    exact zero_le _
  · rename_i hne
    rw [if_neg hne] at hens
    rw [hens]
    refine .bind (mulOverflowCheckHalt_returns _ _) ?_
    rintro sizeBytes ⟨hbs, hbs_lt⟩
    have hlen : values.length ≤ capacity := by
      have := hs.length_le
      omega
    have hfit : values.length * L.elementSize ≤ sizeBytes := by
      rw [hbs]
      exact mul_le_mul_right _ hlen
    refine .bind (memoryReallocate_returns hs.holds hfit) ?_
    rintro ⟨block, n'⟩ ⟨hbl, hh⟩
    obtain rfl : block.bytes = sizeBytes := hbl
    refine ⟨represents_block hs.size_eq ?_ (by omega) hbs hbs_lt hh, rfl, hle⟩
    rw [hs.size_eq]
    exact hlen

section

omit hs

theorem grows_zero (newSz : Nat) : Grows L.elements 0 newSz := .inl rfl

theorem constructFrom_returns (hr : source.Represents values) :
    Returns (constructFrom n source) fun r => r.1.Represents values := by
  unfold constructFrom
  split
  · rename_i hz
    obtain rfl : values = [] := eq_nil_of_length_eq_zero (hr.size_eq ▸ hz)
    rw [hz]
    exact empty_represents
  · have hbs : max L.firstAllocationSize source.size * L.elementSize < L.sizes := by
      rcases le_total L.firstAllocationSize source.size with h | h
      · rw [max_eq_right h, hr.size_eq]
        exact hr.bytes_lt
      · rw [max_eq_left h]
        exact firstAllocationSize_spec.2
    refine .bind (memoryAllocate_returns _) ?_
    rintro ⟨block, n'⟩ hbl
    have hbl' : block.bytes = max L.firstAllocationSize source.size * L.elementSize :=
      hbl.trans (bytesOf_eq hbs)
    have he : ({ ptr := some block, size := 0, capacity := max L.firstAllocationSize source.size } :
        StringBase L).Represents [] :=
      represents_block rfl (zero_le _) (first_capacity_pos source.size) hbl'
        (hbl' ▸ hbs) (.nil _)
    have hle : source.size ≤ max L.firstAllocationSize source.size := le_max_right _ _
    obtain ⟨q, hcp, hh, heq⟩ := memoryCopyAligned_ok hr (.nil (some block))
      (he.hasRoom (by rw [length_nil, zero_add, ← hr.size_eq]; exact hle))
    rw [length_nil] at hcp
    show Returns (memoryCopyAligned (some block) 0 source.data (bytesOf L source.size) >>= _) _
    rw [hcp]
    exact he.changed heq hh hr.size_eq hle

theorem constructFill_returns (c : Nat) (v : L.Value) : Returns (constructFill n c v) fun r =>
    r.1.Represents (replicate c v) := by
  unfold constructFill
  split
  · rename_i hz
    subst hz
    exact empty_represents
  · refine .bind (mulOverflowCheckHalt_returns _ _) ?_
    rintro sizeBytes ⟨hbs, hbs_lt⟩
    refine .bind (memoryAllocate_returns sizeBytes) ?_
    rintro ⟨block, n'⟩ hbl
    obtain rfl : block.bytes = sizeBytes := hbl
    have he : ({ ptr := some block, size := 0, capacity := max L.firstAllocationSize c } :
        StringBase L).Represents [] :=
      represents_block rfl (zero_le _) (first_capacity_pos c) hbs hbs_lt (.nil _)
    have hle : c ≤ max L.firstAllocationSize c := le_max_right _ _
    obtain ⟨q, hsto, hh, heq⟩ := storeAt_ok (replicate c v) (.nil (some block)) (he.hasRoom (by
        rw [length_nil, zero_add, length_replicate]
        exact hle))
    rw [length_nil] at hsto
    show Returns (storeAt (some block) 0 (replicate c v) >>= _) _
    rw [hsto]
    exact he.changed heq hh length_replicate.symm hle

end

theorem Represents.assignRange
    (hr : source.Represents others) (hgr : Grows L.elements s.capacity source.size) :
    Returns (s.assignRange n source) fun r => r.1.Represents others := by
  have hnew : source.size < L.sizes := hr.size_eq ▸ length_lt_sizes hr.bytes_lt
  refine .bind (hs.ensureCapacity hnew hgr) ?_
  rintro ⟨s', n'⟩ ⟨hs', -, hle⟩
  obtain ⟨q, hcp, hh, heq⟩ := memoryCopyAligned_ok hr (.nil s'.ptr)
    (hs'.hasRoom (by rw [length_nil, zero_add, ← hr.size_eq]; exact hle))
  rw [length_nil] at hcp
  show Returns (memoryCopyAligned s'.ptr 0 source.data (bytesOf L source.size) >>= _) _
  rw [hcp]
  exact hs'.changed heq hh hr.size_eq hle

/-! ## Concatenation -/

def PartsRepresent (parts : List (Range L)) (contents : List (List L.Value)) : Prop :=
  Forall₂ (fun part values => part.Represents values) parts contents

section

omit hs

theorem PartsRepresent.sum_eq
    (h : PartsRepresent parts contents) : (parts.map (·.size)).sum = contents.flatten.length := by
  induction h with
  | nil => rfl
  | cons hpart _ ih =>
    rw [map_cons, sum_cons, flatten_cons, length_append, ih, hpart.size_eq]

theorem totalSize_eq (parts : List (Range L)) :
    totalSize parts = (parts.map (·.size)).sum % L.sizes := by
  suffices h : ∀ total, total < L.sizes →
      parts.foldl (fun total part => (total + part.size) % L.sizes) total =
        (total + (parts.map (·.size)).sum) % L.sizes by
    have hz := h 0 (Nat.two_pow_pos _)
    rwa [zero_add] at hz
  induction parts with
  | nil =>
    intro total htot
    exact (mod_eq_of_lt htot).symm
  | cons part parts ih =>
    intro total _
    rw [foldl_cons, ih _ (mod_lt _ (Nat.two_pow_pos _)), map_cons, sum_cons,
      mod_add_mod, add_assoc]

theorem concatLoop_ok (h : PartsRepresent parts contents) {p : Pointer L} (hp : Holds p values)
    (hrm : HasRoom p (values.length + contents.flatten.length))
    (hlt : values.length + contents.flatten.length < L.sizes) :
    ∃ q, concatLoop p values.length parts = .ok q ∧ Holds q (values ++ contents.flatten) ∧
      SameBlock p q := by
  induction h generalizing p values with
  | nil => exact ⟨p, rfl, by rwa [flatten_nil, append_nil], rfl⟩
  | @cons part cs parts contents hpart _ ih =>
    rw [flatten_cons, length_append] at hrm hlt
    obtain ⟨p', hcp, hh, heq⟩ := memoryCopyAligned_ok hpart hp (hrm.mono (by omega))
    have hoff : (values.length + part.size) % L.sizes = (values ++ cs).length := by
      rw [length_append, hpart.size_eq, mod_eq_of_lt (by omega)]
    obtain ⟨q, hlp, hh', heq'⟩ := ih hh (heq.hasRoom (hrm.mono (by rw [length_append]; omega)))
      (by rw [length_append]; omega)
    refine ⟨q, ?_, ?_, heq.trans heq'⟩
    · rw [concatLoop, hcp, hoff.symm] at *
      exact hlp
    · rwa [append_assoc] at hh'

theorem concat_returns
    (h : PartsRepresent parts contents) (hlt : (parts.map (·.size)).sum < L.sizes) :
    Returns (concat n parts) fun r => r.1.Represents contents.flatten := by
  have htot : totalSize parts = contents.flatten.length := by
    rw [totalSize_eq, mod_eq_of_lt hlt, h.sum_eq]
  unfold concat
  rw [htot]
  rw [h.sum_eq] at hlt
  refine .bind (empty_represents.ensureCapacity hlt (grows_zero _)) ?_
  rintro ⟨s', n'⟩ ⟨hs', -, hle⟩
  obtain ⟨q, hlp, hh, heq⟩ := concatLoop_ok h (.nil s'.ptr)
    (hs'.hasRoom (by rw [length_nil, zero_add]; exact hle))
    (by rw [length_nil, zero_add]; exact hlt)
  rw [length_nil] at hlp
  show Returns (concatLoop s'.ptr 0 parts >>= _) _
  rw [hlp]
  exact hs'.changed heq hh rfl hle

theorem plus_returns {l r : Range L} (hl : l.Represents values) (hr : r.Represents others)
    (hlt : l.size + r.size < L.sizes) :
    Returns (plus n l r) fun res => res.1.Represents (values ++ others) := by
  have hsz : l.size + r.size = (values ++ others).length := by
    rw [length_append, hl.size_eq, hr.size_eq]
  unfold plus
  rw [mod_eq_of_lt hlt]
  refine .bind (empty_represents.ensureCapacity hlt (grows_zero _)) ?_
  rintro ⟨s', n'⟩ ⟨hs', -, hle⟩
  have hle' : values.length + others.length ≤ s'.capacity := by
    have hle'' : l.size + r.size ≤ s'.capacity := hle
    rwa [hsz, length_append] at hle''
  obtain ⟨p, hcp, hh, heq⟩ := memoryCopyAligned_ok hl (.nil s'.ptr)
    (hs'.hasRoom (le_trans (by rw [length_nil]; omega) hle'))
  rw [length_nil] at hcp
  obtain ⟨q, hcp', hh', heq'⟩ := memoryCopyAligned_ok hr hh
    (heq.hasRoom (hs'.hasRoom (by rw [nil_append]; exact hle')))
  rw [nil_append, ← hl.size_eq] at hcp'
  show Returns (memoryCopyAligned s'.ptr 0 l.data (bytesOf L l.size) >>= _) _
  rw [hcp]
  show Returns (memoryCopyAligned p l.size r.data (bytesOf L r.size) >>= _) _
  rw [hcp']
  exact hs'.changed (heq.trans heq') hh' hsz hle

end

theorem Represents.addAssignRange
    (hr : source.Represents others) (hlt : s.size + source.size < L.sizes)
    (hgr : Grows L.elements s.capacity (s.size + source.size)) :
    Returns (s.addAssignRange n source) fun r => r.1.Represents (values ++ others) := by
  have hsz : s.size + source.size = (values ++ others).length := by
    rw [length_append, hs.size_eq, hr.size_eq]
  unfold StringBase.addAssignRange
  rw [mod_eq_of_lt hlt]
  refine .bind (hs.ensureCapacity hlt hgr) ?_
  rintro ⟨s', n'⟩ ⟨hs', -, hle⟩
  obtain ⟨q, hcp, hh, heq⟩ := memoryCopyAligned_ok hr hs'.holds
    (hs'.hasRoom (by rw [hsz, length_append] at hle; exact hle))
  rw [← hs'.size_eq] at hcp
  show Returns (memoryCopyAligned s'.ptr s'.size source.data (bytesOf L source.size) >>= _) _
  rw [hcp]
  exact hs'.changed heq hh hsz hle

/-! ## Modification -/

theorem Represents.pushBack (v : L.Value)
    (hlt : s.size + 1 < L.sizes) (hgr : Grows L.elements s.capacity (s.size + 1)) :
    Returns (s.pushBack n v) fun r => r.1.Represents (values ++ [v]) := by
  unfold StringBase.pushBack
  rw [mod_eq_of_lt hlt]
  refine .bind (hs.ensureCapacity hlt hgr) ?_
  rintro ⟨s', n'⟩ ⟨hs', hsz, hle⟩
  obtain ⟨q, hput, hstd⟩ := put_ok (hs'.hasRoom (hsz ▸ hle) : HasRoom s'.ptr (s'.size + 1)) v
  show Returns (put s'.ptr s'.size v >>= _) _
  rw [hput]
  rw [hs'.size_eq] at hstd
  exact hs'.changed hstd.same (hstd.holds_append hs'.holds)
    (by rw [length_append, length_singleton, hs.size_eq]) hle

/-- The methods that make room for chars and store them behind the others. -/
theorem Represents.append (others : List L.Value)
    (hsz : newSz = s.size + others.length) (hnew : newSz < L.sizes)
    (hgr : Grows L.elements s.capacity newSz) :
    Returns (do
      let (s, n) ← s.ensureCapacity n newSz
      let p ← storeAt s.ptr s.size others
      .ok ({ s with ptr := p, size := newSz }, n)) fun r =>
        r.1.Represents (values ++ others) := by
  refine .bind (hs.ensureCapacity hnew hgr) ?_
  rintro ⟨s', n'⟩ ⟨hs', -, hle⟩
  have hsz' : newSz = (values ++ others).length := by
    rw [length_append, hsz, hs.size_eq]
  obtain ⟨q, hsto, hh, heq⟩ := storeAt_ok others hs'.holds
    (hs'.hasRoom (by rw [hsz', length_append] at hle; exact hle))
  rw [← hs'.size_eq] at hsto
  show Returns (storeAt s'.ptr s'.size others >>= _) _
  rw [hsto]
  exact hs'.changed heq hh hsz' hle

theorem Represents.pushBackMany (c : Nat) (v : L.Value)
    (hgr : s.size + c < L.sizes → Grows L.elements s.capacity (s.size + c)) :
    Returns (s.pushBackMany n c v) fun r =>
      r.1.Represents (values ++ replicate c v) := by
  refine .bind (addOverflowCheckHalt_returns _ _) ?_
  rintro _ ⟨rfl, hlt⟩
  exact hs.append _ (by rw [length_replicate]) hlt (hgr hlt)

theorem Represents.resize (v : L.Value)
    (hnew : newSz < L.sizes) (hgr : Grows L.elements s.capacity newSz) :
    Returns (s.resize n newSz v) fun r =>
      r.1.Represents (resizedList values newSz v) := by
  have hlen := hs.size_eq
  unfold StringBase.resize resizedList
  rw [← hlen]
  by_cases hgt : newSz > s.size
  · rw [if_pos hgt, if_pos hgt]
    exact hs.append (replicate (newSz - s.size) v) (by rw [length_replicate]; omega) hnew hgr
  · rw [if_neg hgt]
    split
    · exact hs.cut (by omega)
    · rw [take_of_length_le (by omega)]
      exact hs

theorem Represents.shrinkToFit :
    Returns (s.shrinkToFit n) fun r => r.1.Represents values := by
  unfold StringBase.shrinkToFit
  split
  · split
    · rename_i hz
      obtain rfl : values = [] := eq_nil_of_length_eq_zero (hs.size_eq ▸ hz)
      exact ⟨hs.size_eq, le_refl _, ⟨fun _ => hz, fun _ => rfl⟩, by
        show 0 = s.size * L.elementSize
        rw [hz, zero_mul], Nat.two_pow_pos _, .nil _⟩
    · rename_i hne
      have hbs : s.size * L.elementSize < L.sizes := by
        rw [hs.size_eq]
        exact hs.bytes_lt
      rw [bytesOf_eq hbs]
      refine .bind (memoryReallocate_returns hs.holds (by rw [hs.size_eq])) ?_
      rintro ⟨block, n'⟩ ⟨hbl, hh⟩
      exact represents_block hs.size_eq (le_refl _) hne hbl (hbl ▸ hbs) hh
  · exact hs

theorem Represents.dropBackMany (c : Nat) :
    (s.dropBackMany c = .error .halt ∧ values.length < c) ∨
      ∃ s', s.dropBackMany c = .ok s' ∧ ¬values.length < c ∧
        s'.Represents (values.take (values.length - c)) := by
  unfold StringBase.dropBackMany
  rw [hs.size_eq]
  by_cases hgt : c > values.length
  · exact .inl ⟨if_pos hgt, hgt⟩
  · exact .inr ⟨_, if_neg hgt, hgt, hs.cut (sub_le _ _)⟩

theorem Represents.dropBack : (s.dropBack = .error .halt ∧ values = []) ∨
    ∃ s', s.dropBack = .ok s' ∧ values ≠ [] ∧ s'.Represents values.dropLast := by
  by_cases he : values = []
  · exact .inl ⟨if_pos (by rw [hs.size_eq, he]; rfl), he⟩
  · have hne : s.size ≠ 0 := by
      rw [hs.size_eq]
      exact fun h => he (eq_nil_of_length_eq_zero h)
    refine .inr ⟨_, if_neg hne, he, ?_⟩
    rw [dropLast_eq_take, hs.size_eq]
    exact hs.cut (sub_le _ _)

theorem Represents.popBack :
    (s.popBack = .error .halt ∧ values.getLast? = none) ∨
      ∃ s' last, s.popBack = .ok (s', last) ∧ values.getLast? = some last ∧
        s'.Represents values.dropLast := by
  rcases hs.dropBack with ⟨hdr, rfl⟩ | ⟨s', hdr, hne, hs'⟩
  · exact .inl ⟨if_pos hs.size_eq, rfl⟩
  · have hpos : s.size ≠ 0 := by
      rw [hs.size_eq]
      exact fun h => hne (eq_nil_of_length_eq_zero h)
    unfold StringBase.dropBack at hdr
    rw [if_neg hpos] at hdr
    obtain rfl := Except.ok.inj hdr
    have hla : values[s.size - 1]? = some (values.getLast hne) := by
      rw [hs.size_eq, ← getLast?_eq_getElem?, getLast?_eq_some_getLast hne]
    refine .inr ⟨_, values.getLast hne, ?_, getLast?_eq_some_getLast hne, hs'⟩
    unfold StringBase.popBack
    rw [if_neg hpos, get_ok hs.holds hs.range.hasRoom hla]
    rfl

theorem Represents.swap (i0 i1 : Nat) :
    (s.swap i0 i1 = .error .halt ∧ ¬(i0 < values.length ∧ i1 < values.length)) ∨
      ∃ s' a b, s.swap i0 i1 = .ok s' ∧ values[i0]? = some a ∧ values[i1]? = some b ∧
        s'.Represents ((values.set i0 b).set i1 a) := by
  have hsz := hs.size_eq
  unfold StringBase.swap
  by_cases h0 : i0 ≥ s.size
  · exact .inl ⟨if_pos h0, fun h => by omega⟩
  rw [if_neg h0]
  by_cases h1 : i1 ≥ s.size
  · exact .inl ⟨if_pos h1, fun h => by omega⟩
  rw [if_neg h1]
  have hlt0 : i0 < values.length := by omega
  have hlt1 : i1 < values.length := by omega
  have hget0 := getElem?_eq_getElem hlt0
  have hget1 := getElem?_eq_getElem hlt1
  refine .inr ?_
  by_cases heq : i0 = i1
  · subst heq
    refine ⟨s, _, _, if_pos rfl, hget0, hget1, ?_⟩
    rw [set_set, set_getElem_self]
    exact hs
  · rw [if_neg heq]
    have hcap := hs.length_le
    obtain ⟨p, hput, hstd⟩ := put_ok (hs.hasRoom (by omega) : HasRoom s.ptr (i0 + 1)) values[i1]
    obtain ⟨q, hput', hstd'⟩ :=
      put_ok (hstd.same.hasRoom (hs.hasRoom (by omega)) : HasRoom p (i1 + 1)) values[i0]
    refine ⟨{ s with ptr := q }, _, _, ?_, hget0, hget1, ?_⟩
    · rw [get_ok hs.holds hs.range.hasRoom hget0]
      show (get s.ptr i1 >>= _) = _
      rw [get_ok hs.holds hs.range.hasRoom hget1]
      show (put s.ptr i0 _ >>= _) = _
      rw [hput]
      show (put p i1 _ >>= _) = _
      rw [hput']
      rfl
    · exact hs.changed (hstd.same.trans hstd'.same) (hstd'.holds_set (hstd.holds_set hs.holds))
        (by rw [length_set, length_set, hs.size_eq]) hs.size_le

theorem Represents.substr (i j : Nat) :
    (s.substr n i j = .error .halt ∧ ¬(i ≤ j ∧ j ≤ values.length)) ∨
      (i ≤ j ∧ j ≤ values.length) ∧ Returns (s.substr n i j) fun r =>
        r.1.Represents ((values.drop i).take (j - i)) := by
  unfold StringBase.substr
  rcases hs.range.subrange i j with ⟨hsub, hne⟩ | ⟨part, hsub, hle, hpart⟩
  · exact .inl ⟨by rw [hsub]; rfl, hne⟩
  · refine .inr ⟨hle, ?_⟩
    rw [hsub]
    exact constructFrom_returns hpart

/-- The condition for chars to be pushed one after another: no size is zero again, and no
capacity is doubled for ever. -/
def PushesFit (s : StringBase L) (n : Nat) : List L.Value → Prop
  | [] => True
  | value :: values =>
    (s.size + 1 < L.sizes ∧ Grows L.elements s.capacity (s.size + 1)) ∧
      ∀ s' n', s.pushBack n value = .ok (s', n') → PushesFit s' n' values

theorem Represents.pushAll (others : List L.Value)
    (hfit : s.PushesFit n others) :
    Returns (s.pushAll n others) fun r => r.1.Represents (values ++ others) := by
  induction others generalizing s n values with
  | nil =>
    rw [append_nil]
    exact hs
  | cons v others ih =>
    have hpu := hs.pushBack (n := n) v hfit.1.1 hfit.1.2
    have hnx := hfit.2
    unfold pushAll
    cases hres : s.pushBack n v with
    | error e =>
      rw [hres] at hpu
      exact hpu
    | ok r =>
      obtain ⟨s', n'⟩ := r
      rw [hres] at hpu
      have hrs := ih hpu (hnx s' n' hres)
      rwa [append_assoc] at hrs

omit hs

theorem make_returns (values : List L.Value) {size : Nat} (hsz : size = values.length)
    (hlt : size < L.sizes) :
    Returns (do
      let (s, n) ← (empty : StringBase L).ensureCapacity n size
      let p ← storeAt s.ptr 0 values
      .ok ({ s with ptr := p, size := size }, n)) fun r => r.1.Represents values := by
  refine .bind (empty_represents.ensureCapacity hlt (grows_zero _)) ?_
  rintro ⟨s', n'⟩ ⟨hs', -, hle⟩
  obtain ⟨q, hsto, hh, heq⟩ := storeAt_ok values (.nil s'.ptr)
    (hs'.hasRoom (by rw [length_nil, zero_add, ← hsz]; exact hle))
  rw [length_nil] at hsto
  show Returns (storeAt s'.ptr 0 values >>= _) _
  rw [hsto]
  exact hs'.changed heq hh hsz hle

theorem fromMappedRange_returns {β : Type} (r : List β) (func : β → L.Value)
    (hlt : r.length < L.sizes) :
    Returns (fromMappedRange n r func) fun res => res.1.Represents (r.map func) :=
  make_returns (r.map func) (by rw [length_map]) hlt

theorem length_callResults {σ : Type} (f : σ → L.Value × σ) (st : σ) (sz : Nat) :
    (callResults f st sz).length = sz := by
  induction sz generalizing st with
  | zero => rfl
  | succ sz ih => rw [callResults, length_cons, ih]

theorem fromFillerFunction_returns {σ : Type} {size : Nat} (func : σ → L.Value × σ) (st : σ)
    (hlt : size < L.sizes) :
    Returns (fromFillerFunction n size func st) fun r =>
      r.1.Represents (callResults func st size) :=
  make_returns _ (length_callResults func st size).symm hlt

end USprache.Ustlib.StringBase

/-!
## Comparison of strings

The comparisons of strings are those of the lists of chars: equality, the lexicographic
order, and the tests for a prefix and for a suffix.
-/

namespace USprache.Ustlib.StringBase

open List

variable {L : StringLayout} {s other : StringBase L} {range : Range L} {vs others : List L.Value}

/-! ## Three-way comparison -/

/-- The signs of the comparison are those of a total order whose equality is that of the type. -/
structure OrdersTotally {β : Type} (order : β → β → Int) : Prop where
  eq_zero_iff : ∀ a b, order a b = 0 ↔ a = b
  swap : ∀ a b, order b a = -order a b
  trans : ∀ a b c, order a b ≤ 0 → order b c ≤ 0 → order a c ≤ 0

variable {β : Type}

theorem compareOrder_le_zero_iff [LinearOrder β] (d : DecidableLT β) (a b : β) :
    @compareOrder β _ d a b ≤ 0 ↔ a ≤ b := by
  unfold compareOrder
  split
  · rename_i h
    exact ⟨fun _ => h.le, fun _ => by decide⟩
  · split
    · rename_i h
      exact ⟨fun h' => absurd h' (by decide), fun h' => absurd h (not_lt.2 h')⟩
    · rename_i h
      exact ⟨fun _ => not_lt.1 h, fun _ => Int.le_refl 0⟩

theorem compareOrder_totally [LinearOrder β] (d : DecidableLT β) :
    OrdersTotally (@compareOrder β _ d) where
  eq_zero_iff a b := by
    unfold compareOrder
    rcases lt_trichotomy a b with h | h | h
    · rw [if_pos h]
      exact ⟨fun h' => absurd h' (by decide), fun h' => absurd h' h.ne⟩
    · subst h
      rw [if_neg (lt_irrefl a), if_neg (lt_irrefl a)]
      exact ⟨fun _ => rfl, fun _ => rfl⟩
    · rw [if_neg h.asymm, if_pos h]
      exact ⟨fun h' => absurd h' (by decide), fun h' => absurd h' h.ne'⟩
  swap a b := by
    unfold compareOrder
    rcases lt_trichotomy a b with h | h | h
    · rw [if_pos h, if_neg h.asymm, if_pos h]
      rfl
    · subst h
      rw [if_neg (lt_irrefl a), if_neg (lt_irrefl a)]
      rfl
    · rw [if_pos h, if_neg h.asymm, if_pos h]
  trans a b c hab hbc := by
    rw [compareOrder_le_zero_iff] at *
    exact le_trans hab hbc

theorem compareOrder_cons_of_ne [LinearOrder β] {a b : β} (hne : a ≠ b)
    (l r : List β) : compareOrder (a :: l) (b :: r) = compareOrder a b := by
  unfold compareOrder
  rcases lt_or_gt_of_ne hne with h | h
  · rw [if_pos h, if_pos (cons_lt_cons_iff.2 (.inl h))]
  · rw [if_neg h.asymm, if_pos h, if_neg, if_pos (cons_lt_cons_iff.2 (.inl h))]
    intro hlt
    rcases cons_lt_cons_iff.1 hlt with hlt | ⟨heq, -⟩
    · exact h.asymm hlt
    · exact hne heq

theorem compareOrder_cons_self [LinearOrder β] (a : β) (l r : List β) :
    compareOrder (a :: l) (a :: r) = compareOrder l r := by
  have hiff : ∀ l r, a :: l < a :: r ↔ l < r := by
    intro l r
    rw [cons_lt_cons_iff]
    exact ⟨fun h => h.elim (fun h => absurd h (lt_irrefl a)) (·.2), fun h => .inr ⟨rfl, h⟩⟩
  unfold compareOrder
  simp only [hiff]

theorem compareOrder_of_nil [LinearOrder β] {l r : List β} (h : l = [] ∨ r = []) :
    compareOrder l r = compareOrder l.length r.length := by
  unfold compareOrder
  rcases h with rfl | rfl
  · cases r with
    | nil => rfl
    | cons b r => rw [if_pos (nil_lt_cons b r), length_nil, length_cons, if_pos (Nat.succ_pos _)]
  · cases l with
    | nil => rfl
    | cons a l =>
      rw [if_neg (not_lt_nil _), if_pos (nil_lt_cons a l), length_nil,
        length_cons, if_neg (Nat.not_lt_zero _), if_pos (Nat.succ_pos _)]

theorem compareOrder_add (i a b : Nat) : compareOrder (i + a) (i + b) = compareOrder a b := by
  unfold compareOrder
  simp only [add_lt_add_iff_left]

variable (hs : s.Represents vs)

include hs

theorem Represents.equalsRange (hr : range.Represents others) :
    s.equalsRange range = .ok (decide (vs = others)) := by
  unfold StringBase.equalsRange
  by_cases hsz : s.size = range.size
  · rw [if_neg (not_not.2 hsz), hs.size_eq]
    rw [hs.size_eq, hr.size_eq] at hsz
    exact memoryEquals_eq hs.holds hs.range.hasRoom hr.holds hr.hasRoom hsz hs.bytes_lt
  · rw [if_pos hsz]
    have hne : vs ≠ others := by
      intro h
      rw [hs.size_eq, hr.size_eq, h] at hsz
      exact hsz rfl
    rw [decide_eq_false hne]

theorem Represents.orderLoop (ho : other.Represents others)
    {i n : Nat} (hn : i + n = min vs.length others.length) :
    orderLoop s other i n = .ok (compareOrder (vs.drop i) (others.drop i)) := by
  induction n generalizing i with
  | zero =>
    have hends : vs.drop i = [] ∨ others.drop i = [] := by
      rw [drop_eq_nil_iff, drop_eq_nil_iff]
      omega
    rw [compareOrder_of_nil hends, length_drop, length_drop,
      ← compareOrder_add i, Nat.add_sub_cancel' (by omega), Nat.add_sub_cancel' (by omega),
      StringBase.orderLoop, hs.size_eq, ho.size_eq]
  | succ n ih =>
    have hi : i < vs.length := by omega
    have hi' : i < others.length := by omega
    have hget := get_ok hs.holds hs.range.hasRoom (getElem?_eq_getElem hi)
    have hget' := get_ok ho.holds ho.range.hasRoom (getElem?_eq_getElem hi')
    rw [drop_eq_getElem_cons hi, drop_eq_getElem_cons hi', StringBase.orderLoop, hget]
    show (get other.ptr i >>= _) = _
    rw [hget']
    show (if vs[i] ≠ others[i] then _ else _) = _
    by_cases heq : vs[i] = others[i]
    · rw [if_neg (not_not.2 heq), heq, compareOrder_cons_self]
      exact ih (by omega)
    · rw [if_pos heq, compareOrder_cons_of_ne heq]

theorem Represents.order (ho : other.Represents others) :
    s.order other = .ok (compareOrder vs others) := by
  unfold StringBase.order
  rw [hs.orderLoop ho (by rw [hs.size_eq, ho.size_eq, zero_add]), drop_zero, drop_zero]

theorem Represents.matchLoop (hr : range.Represents others)
    {off i n : Nat} (hoff : off + others.length ≤ vs.length)
    (hn : i + n = others.length) :
    matchLoop s off range i n = .ok (decide ((vs.drop (off + i)).take n = others.drop i)) := by
  induction n generalizing i with
  | zero =>
    rw [drop_eq_nil_of_le (by omega : others.length ≤ i)]
    rfl
  | succ n ih =>
    have hi : off + i < vs.length := by omega
    have hi' : i < others.length := by omega
    have hget := get_ok hs.holds hs.range.hasRoom (getElem?_eq_getElem hi)
    have hget' := get_ok hr.holds hr.hasRoom (getElem?_eq_getElem hi')
    rw [drop_eq_getElem_cons hi, drop_eq_getElem_cons hi', take_succ_cons,
      StringBase.matchLoop, hget]
    show (get range.data i >>= _) = _
    rw [hget']
    show (if vs[off + i] ≠ others[i] then _ else _) = _
    by_cases heq : vs[off + i] = others[i]
    · rw [if_neg (not_not.2 heq), ih (by omega)]
      congr 1
      rw [decide_eq_decide, cons.injEq]
      exact ⟨fun h => ⟨heq, h⟩, fun h => h.2⟩
    · rw [if_pos heq, decide_eq_false]
      intro h
      exact heq (cons.inj h).1

theorem Represents.startsWith (hr : range.Represents others) :
    s.startsWith range = .ok (decide (others <+: vs)) := by
  unfold StringBase.startsWith
  rw [hs.size_eq, hr.size_eq]
  by_cases hlt : vs.length < others.length
  · rw [if_pos hlt, decide_eq_false]
    intro h
    exact absurd h.length_le (not_le.2 hlt)
  · rw [if_neg hlt, hs.matchLoop hr (by omega) (zero_add _)]
    congr 1
    rw [decide_eq_decide, prefix_iff_eq_take]
    exact eq_comm

theorem Represents.endsWith (hr : range.Represents others) :
    s.endsWith range = .ok (decide (others <:+ vs)) := by
  unfold StringBase.endsWith
  rw [hs.size_eq, hr.size_eq]
  by_cases hlt : vs.length < others.length
  · rw [if_pos hlt, decide_eq_false]
    intro h
    exact absurd h.length_le (not_le.2 hlt)
  · rw [if_neg hlt, hs.matchLoop hr (by omega) (zero_add _),
      take_of_length_le (by rw [length_drop]; omega)]
    congr 1
    rw [decide_eq_decide, suffix_iff_eq_drop]
    exact eq_comm

end USprache.Ustlib.StringBase
