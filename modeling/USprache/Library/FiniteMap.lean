import Mathlib.Data.List.Perm.Basic

/-!
# Finite maps over a key type with an equality test

A finite map is a list of entries with pairwise different keys.  The equality of
keys is a test that need not be equality itself, so a map also remembers which of
several equal keys it was given first.  The order of the entries carries no
meaning: what can be observed of a map is the same for a permutation of it.
-/

namespace USprache

open List Bool

def KeysDiffer {K V : Type*} [BEq K] (a b : K × V) : Prop := (a.1 == b.1) = false

theorem KeysDiffer.symm {K V : Type*} [BEq K] [PartialEquivBEq K] {a b : K × V}
    (h : KeysDiffer a b) : KeysDiffer b a := by
  rw [KeysDiffer, BEq.comm]
  exact h

structure FiniteMap (K V : Type*) [BEq K] where
  entries : List (K × V)
  distinct : entries.Pairwise KeysDiffer

namespace FiniteMap

variable {K V : Type*} [BEq K]

def empty : FiniteMap K V := ⟨[], Pairwise.nil⟩

variable (m : FiniteMap K V)

def size : Nat := m.entries.length

def lookupIn (entries : List (K × V)) (key : K) : Option V :=
  (entries.find? (fun e => key == e.1)).map Prod.snd

def lookup (key : K) : Option V := lookupIn m.entries key

def contains (key : K) : Bool := m.entries.any (fun e => key == e.1)

def insert (key : K) (value : V) (h : m.contains key = false) :
    FiniteMap K V where
  entries := (key, value) :: m.entries
  distinct := by
    refine Pairwise.cons (fun e he => ?_) m.distinct
    rw [contains, any_eq_false] at h
    exact eq_false_iff.2 (h e he)

def mapValues (f : K → V → V) : FiniteMap K V where
  entries := m.entries.map (fun e => (e.1, f e.1 e.2))
  distinct := by
    rw [pairwise_map]
    exact m.distinct

def modify (key : K) (f : V → V) : FiniteMap K V :=
  m.mapValues (fun k v => if key == k then f v else v)

/-- Keep the entries `f` accepts, with the values it gives them. -/
def retain (f : K → V → Bool × V) : FiniteMap K V where
  entries := m.entries.filterMap (fun e => if (f e.1 e.2).1 then some (e.1, (f e.1 e.2).2) else none)
  distinct := by
    rw [pairwise_filterMap]
    refine m.distinct.imp (fun {a b} hab a' ha' b' hb' => ?_)
    split at ha' <;> split at hb' <;> cases ha' <;> cases hb'
    exact hab

def erase (key : K) : FiniteMap K V := m.retain (fun k v => (!(key == k), v))

def Equal [BEq V] (m m' : FiniteMap K V) : Prop := ∀ key, (m.lookup key == m'.lookup key) = true

variable {es : List (K × V)}

theorem lookupIn_eq_none_iff {key : K} :
    lookupIn es key = none ↔ ∀ e ∈ es, (key == e.1) = false := by
  rw [lookupIn, Option.map_eq_none_iff, find?_eq_none]
  exact forall₂_congr (fun _ _ => not_eq_true _ ▸ Iff.rfl)

theorem contains_eq_false_iff {m : FiniteMap K V} {key : K} :
    m.contains key = false ↔ ∀ e ∈ m.entries, (key == e.1) = false := by
  rw [contains, any_eq_false]
  exact forall₂_congr (fun _ _ => not_eq_true _ ▸ Iff.rfl)

theorem contains_eq (key : K) : m.contains key = (m.lookup key).isSome := by
  cases hc : m.contains key with
  | false =>
    have hno : m.lookup key = none := lookupIn_eq_none_iff.2 (contains_eq_false_iff.1 hc)
    rw [hno, Option.isSome_none]
  | true =>
    cases hl : m.lookup key with
    | none =>
      have hfa : m.contains key = false := contains_eq_false_iff.2 (lookupIn_eq_none_iff.1 hl)
      rw [hc] at hfa
      cases hfa
    | some v => rfl

theorem lookup_mapValues [LawfulBEq K] (m : FiniteMap K V) (f : K → V → V) (key : K) :
    (m.mapValues f).lookup key = (m.lookup key).map (f key) := by
  rw [lookup, lookup, lookupIn, lookupIn, mapValues, find?_map, Option.map_map, Option.map_map]
  refine Option.map_congr fun e he => ?_
  have hkey := @find?_some _ (fun e : K × V => key == e.1) _ _ he
  rw [eq_of_beq hkey]
  rfl

section

variable [EquivBEq K]

theorem lookupIn_eq_some_iff (h : es.Pairwise KeysDiffer) {key : K} {v : V} :
    lookupIn es key = some v ↔ ∃ k, (k, v) ∈ es ∧ (key == k) = true := by
  induction es with
  | nil => simp [lookupIn]
  | cons e rs ih =>
    obtain ⟨hhd, hrs⟩ := pairwise_cons.1 h
    cases hkey : key == e.1 with
    | true =>
      have hfd : lookupIn (e :: rs) key = some e.2 := by
        simp only [lookupIn, find?_cons, hkey, Option.map_some]
      rw [hfd]
      constructor
      · intro hv
        cases hv
        exact ⟨e.1, mem_cons_self, hkey⟩
      · rintro ⟨k, hmem, hk⟩
        rcases mem_cons.1 hmem with rfl | hmem
        · rfl
        · have hdf : (e.1 == k) = false := hhd (k, v) hmem
          have heq : (e.1 == k) = true := BEq.trans (BEq.symm hkey) hk
          rw [hdf] at heq
          cases heq
    | false =>
      have hsk : lookupIn (e :: rs) key = lookupIn rs key := by
        simp only [lookupIn, find?_cons, hkey]
      rw [hsk, ih hrs]
      constructor
      · rintro ⟨k, hmem, hk⟩
        exact ⟨k, mem_cons_of_mem _ hmem, hk⟩
      · rintro ⟨k, hmem, hk⟩
        rcases mem_cons.1 hmem with rfl | hmem
        · rw [hkey] at hk
          cases hk
        · exact ⟨k, hmem, hk⟩

theorem lookupIn_congr {key key' : K} (h : (key == key') = true) :
    lookupIn es key = lookupIn es key' := by
  rw [lookupIn, lookupIn]
  have hfun : (fun e : K × V => key == e.1) = fun e => key' == e.1 :=
    funext (fun e => BEq.congr_left h)
  rw [hfun]

variable {key k : K} {v : V} {rs : List (K × V)} {m}

/-- When the entry of a key is taken out, no other has that key. -/
theorem key_differs_of_mem_rest (h : m.entries.Perm ((k, v) :: rs))
    (hkey : (key == k) = true) : ∀ e ∈ rs, (key == e.1) = false := by
  intro e he
  have hne : ((k, v) :: rs).Pairwise KeysDiffer := m.distinct.perm h KeysDiffer.symm
  have hdf : (k == e.1) = false := (pairwise_cons.1 hne).1 e he
  rw [BEq.congr_left hkey]
  exact hdf

theorem lookup_of_perm (h : m.entries.Perm ((k, v) :: rs))
    (hkey : (key == k) = true) : m.lookup key = some v :=
  (lookupIn_eq_some_iff m.distinct).2 ⟨k, h.mem_iff.2 mem_cons_self, hkey⟩

theorem modify_perm (f : V → V) (h : m.entries.Perm ((k, v) :: rs))
    (hkey : (key == k) = true) : (m.modify key f).entries.Perm ((k, f v) :: rs) := by
  have hrs := key_differs_of_mem_rest h hkey
  have hsf : rs.map (fun e => (e.1, if key == e.1 then f e.2 else e.2)) = rs := by
    refine (map_congr_left (fun e he => ?_)).trans (map_id rs)
    rw [hrs e he]
    rfl
  have hpm := h.map (fun e => (e.1, if key == e.1 then f e.2 else e.2))
  rw [map_cons, hsf, if_pos hkey] at hpm
  exact hpm

theorem erase_perm (h : m.entries.Perm ((k, v) :: rs))
    (hkey : (key == k) = true) : (m.erase key).entries.Perm rs := by
  have hrs := key_differs_of_mem_rest h hkey
  have hsf : rs.filterMap (fun e => if !(key == e.1) then some (e.1, e.2) else none) = rs := by
    refine (filterMap_congr (fun e he => ?_)).trans filterMap_some
    rw [hrs e he]
    rfl
  have hpm := h.filterMap (fun e => if !(key == e.1) then some (e.1, e.2) else none)
  rw [filterMap_cons_none (by rw [hkey]; rfl), hsf] at hpm
  exact hpm

omit [EquivBEq K] in
theorem erase_of_not_contains (h : m.contains key = false) : (m.erase key).entries = m.entries := by
  refine (filterMap_congr (fun e he => ?_)).trans filterMap_some
  show (if !(key == e.1) then some (e.1, e.2) else none) = some e
  rw [contains_eq_false_iff.1 h e he]
  rfl

omit [EquivBEq K] in
/-- A key without an entry is not affected by a change of its value. -/
theorem modify_of_not_contains (f : V → V) (h : m.contains key = false) :
    (m.modify key f).entries = m.entries := by
  refine (map_congr_left (fun e he => ?_)).trans (map_id m.entries)
  show (e.1, if key == e.1 then f e.2 else e.2) = e
  rw [contains_eq_false_iff.1 h e he]
  rfl

end

section

variable [EquivBEq K]

theorem length_le_of_keys_subset {l r : List (K × V)} (hl : l.Pairwise KeysDiffer)
    (h : ∀ e ∈ l, ∃ e' ∈ r, (e.1 == e'.1) = true) : l.length ≤ r.length := by
  induction l generalizing r with
  | nil => exact Nat.zero_le _
  | cons e l ih =>
    obtain ⟨hhd, hl⟩ := pairwise_cons.1 hl
    obtain ⟨e', he', heq⟩ := h e mem_cons_self
    obtain ⟨s, t, rfl⟩ := append_of_mem he'
    have hle : l.length ≤ (s ++ t).length := by
      refine ih hl (fun x hx => ?_)
      obtain ⟨x', hx', hxsa⟩ := h x (mem_cons_of_mem _ hx)
      refine ⟨x', ?_, hxsa⟩
      have hne : x' ≠ e' := by
        rintro rfl
        have hdf : (e.1 == x.1) = false := hhd x hx
        rw [BEq.trans heq (BEq.symm hxsa)] at hdf
        cases hdf
      simpa [hne] using hx'
    simp only [length_append, length_cons] at hle ⊢
    omega

/-- Maps of one size are equal once every entry of the first is found in the
second with an equal value. -/
theorem equal_iff [BEq V] (m m' : FiniteMap K V) : m.Equal m' ↔ m.size = m'.size ∧
    ∀ e ∈ m.entries, ∃ v, m'.lookup e.1 = some v ∧ (e.2 == v) = true := by
  have hsf : ∀ (n : FiniteMap K V), ∀ e ∈ n.entries, n.lookup e.1 = some e.2 := fun n e he =>
    (lookupIn_eq_some_iff n.distinct).2 ⟨e.1, he, BEq.rfl⟩
  constructor
  · intro h
    have hfd : ∀ e ∈ m.entries, ∃ v, m'.lookup e.1 = some v ∧ (e.2 == v) = true := by
      intro e he
      have hkey := h e.1
      rw [hsf m e he] at hkey
      cases hv : m'.lookup e.1 with
      | none => rw [hv] at hkey; cases hkey
      | some v => rw [hv] at hkey; exact ⟨v, rfl, hkey⟩
    refine ⟨Nat.le_antisymm (length_le_of_keys_subset m.distinct ?_)
      (length_le_of_keys_subset m'.distinct ?_), hfd⟩
    · intro e he
      obtain ⟨v, hv, -⟩ := hfd e he
      obtain ⟨k, hmem, hk⟩ := (lookupIn_eq_some_iff m'.distinct).1 hv
      exact ⟨(k, v), hmem, hk⟩
    · intro e he
      have hkey := h e.1
      rw [hsf m' e he] at hkey
      cases hv : m.lookup e.1 with
      | none => rw [hv] at hkey; cases hkey
      | some v =>
        obtain ⟨k, hmem, hk⟩ := (lookupIn_eq_some_iff m.distinct).1 hv
        exact ⟨(k, v), hmem, hk⟩
  · rintro ⟨hsz, hfd⟩ key
    cases hv : m.lookup key with
    | some v =>
      obtain ⟨k, hmem, hk⟩ := (lookupIn_eq_some_iff m.distinct).1 hv
      obtain ⟨v', hv', heq⟩ := hfd (k, v) hmem
      have hkey' : m'.lookup key = some v' := (lookupIn_congr hk).trans hv'
      rw [hkey']
      exact heq
    | none =>
      cases hv' : m'.lookup key with
      | none => rfl
      | some v' =>
        -- The key would be one more than the keys of `m`, all of which are in `m'`.
        have hnew : ((key, v') :: m.entries).Pairwise KeysDiffer :=
          .cons (lookupIn_eq_none_iff.1 hv) m.distinct
        have hle : ((key, v') :: m.entries).length ≤ m'.entries.length := by
          refine length_le_of_keys_subset hnew (fun e he => ?_)
          rcases mem_cons.1 he with rfl | he
          · obtain ⟨k, hmem, hk⟩ := (lookupIn_eq_some_iff m'.distinct).1 hv'
            exact ⟨(k, v'), hmem, hk⟩
          · obtain ⟨v, hv, -⟩ := hfd e he
            obtain ⟨k, hmem, hk⟩ := (lookupIn_eq_some_iff m'.distinct).1 hv
            exact ⟨(k, v), hmem, hk⟩
        rw [size, size] at hsz
        rw [length_cons] at hle
        omega

end

end FiniteMap
end USprache
