import Mathlib.Data.PEquiv

/-!
# Replaced ranges

A range of a list is replaced, or one range after the other.  The places of the elements that
stay are a partial equivalence between the old list and the new one.
-/

namespace USprache.Library

open List Option

variable {α : Type*}

structure Splice (α : Type*) where
  start : Nat
  stop : Nat
  new : List α
  ordered : start ≤ stop

namespace Splice

variable {l : List α} {x : α} {p q : Nat}

def apply (s : Splice α) (l : List α) : List α := l.take s.start ++ s.new ++ l.drop s.stop

def newStop (s : Splice α) : Nat := s.start + s.new.length

def places (s : Splice α) : Nat ≃. Nat where
  toFun p :=
    if p < s.start then some p
    else if s.stop ≤ p then some (p - s.stop + s.newStop)
    else none
  invFun q :=
    if q < s.start then some q
    else if s.newStop ≤ q then some (q - s.newStop + s.stop)
    else none
  inv p q := by
    have hordered := s.ordered
    have hnew : s.start ≤ s.newStop := Nat.le_add_right _ _
    constructor <;> intro h <;> split at h
    · obtain rfl := some.inj h
      exact if_pos ‹_›
    · split at h
      · obtain rfl := some.inj h
        rw [if_neg (by omega), if_pos (by omega)]
        exact congrArg some (by omega)
      · cases h
    · obtain rfl := some.inj h
      exact if_pos ‹_›
    · split at h
      · obtain rfl := some.inj h
        rw [if_neg (by omega), if_pos (by omega)]
        exact congrArg some (by omega)
      · cases h

variable {s : Splice α}

theorem places_of_lt (h : p < s.start) : s.places p = some p := if_pos h

theorem places_of_le (h : s.stop ≤ p) : s.places p = some (p - s.stop + s.newStop) :=
  (if_neg (Nat.not_lt.2 (s.ordered.trans h))).trans (if_pos h)

theorem getElem?_apply (hx : l[p]? = some x) (hq : s.places p = some q) :
    (s.apply l)[q]? = some x := by
  obtain ⟨hp, hget⟩ := List.getElem?_eq_some_iff.1 hx
  by_cases hlt : p < s.start
  · obtain rfl := some.inj ((places_of_lt hlt).symm.trans hq)
    have htk : p < (l.take s.start).length := by
      rw [length_take]
      omega
    rw [apply, append_assoc, getElem?_append_left htk, getElem?_take_of_lt hlt, hx]
  · by_cases hle : s.stop ≤ p
    · obtain rfl := some.inj ((places_of_le hle).symm.trans hq)
      have hlen : (l.take s.start ++ s.new).length = s.newStop := by
        rw [length_append, length_take, newStop]
        omega
      rw [apply, getElem?_append_right (by omega), hlen, Nat.add_sub_cancel,
        getElem?_drop, Nat.add_sub_cancel' hle, hx]
    · cases ((if_neg hlt).trans (if_neg hle)).symm.trans hq

theorem exists_of_getElem?_apply (hx : (s.apply l)[q]? = some x) (hnew : x ∉ s.new) :
    ∃ p, l[p]? = some x ∧ s.places p = some q := by
  rw [apply, append_assoc, getElem?_append] at hx
  split at hx
  · have hlt : q < s.start := by
      rename_i h
      rw [length_take] at h
      omega
    rw [getElem?_take_of_lt hlt] at hx
    exact ⟨q, hx, places_of_lt hlt⟩
  · rename_i hge
    rw [getElem?_append] at hx
    split at hx
    · exact absurd (mem_of_getElem? hx) hnew
    · rename_i hbh
      rw [getElem?_drop] at hx
      obtain ⟨hlen, -⟩ := List.getElem?_eq_some_iff.1 hx
      have hord := s.ordered
      rw [length_take] at hge hbh hx hlen
      refine ⟨_, hx, (places_of_le (Nat.le_add_right _ _)).trans (congrArg some ?_)⟩
      rw [newStop]
      omega

/-- One replacement after the other. -/
def applyAll (splices : List (Splice α)) (l : List α) : List α :=
  splices.foldl (fun l s => s.apply l) l

def allPlaces : List (Splice α) → (Nat ≃. Nat)
  | [] => PEquiv.refl _
  | s :: splices => s.places.trans (allPlaces splices)

variable {splices : List (Splice α)}

theorem allPlaces_cons : allPlaces (s :: splices) p = (s.places p).bind (allPlaces splices) := rfl

theorem allPlaces_cons_symm :
    (allPlaces (s :: splices)).symm q = ((allPlaces splices).symm q).bind s.places.symm := rfl

theorem getElem?_applyAll (hx : l[p]? = some x) (hq : allPlaces splices p = some q) :
    (applyAll splices l)[q]? = some x := by
  induction splices generalizing l p with
  | nil =>
    obtain rfl := some.inj hq
    exact hx
  | cons s splices ih =>
    obtain ⟨p', hp', hq⟩ := bind_eq_some_iff.1 hq
    exact ih (getElem?_apply hx hp') hq

theorem exists_of_getElem?_applyAll (hx : (applyAll splices l)[q]? = some x)
    (hnew : ∀ s ∈ splices, x ∉ s.new) : ∃ p, l[p]? = some x ∧ allPlaces splices p = some q := by
  induction splices generalizing l with
  | nil => exact ⟨q, hx, rfl⟩
  | cons s splices ih =>
    obtain ⟨p', hp', hq⟩ := ih hx fun s' hs' => hnew s' (mem_cons_of_mem s hs')
    obtain ⟨p, hp, hpl⟩ := exists_of_getElem?_apply hp' (hnew s mem_cons_self)
    exact ⟨p, hp, bind_eq_some_iff.2 ⟨p', hpl, hq⟩⟩

/-- A list of tags: each element is replaced by its place, and the new ones have none. -/
def tagged (s : Splice α) : Splice (Option Nat) where
  start := s.start
  stop := s.stop
  new := s.new.map fun _ => none
  ordered := s.ordered

theorem places_tagged : s.tagged.places = s.places := by
  refine PEquiv.ext fun p => ?_
  show (if _ then _ else if _ then some (_ - _ + (_ + (s.new.map _).length)) else none) = _
  rw [length_map]
  rfl

theorem allPlaces_tagged : allPlaces (splices.map tagged) = allPlaces splices := by
  induction splices with
  | nil => rfl
  | cons s splices ih =>
    show s.tagged.places.trans (allPlaces (splices.map tagged)) = _
    rw [places_tagged, ih]
    rfl

def origins (splices : List (Splice α)) (length : Nat) : List (Option Nat) :=
  applyAll (splices.map tagged) ((List.range length).map some)

/-- The new places of the old elements are the ones where they are found. -/
theorem allPlaces_eq_some_iff {len : Nat} (hp : p < len) :
    allPlaces splices p = some q ↔ (origins splices len)[q]? = some (some p) := by
  have hrg : ((range len).map some)[p]? = some (some p) := by
    rw [getElem?_map, getElem?_range hp]
    rfl
  constructor
  · intro h
    exact getElem?_applyAll hrg (by rwa [allPlaces_tagged])
  · intro h
    obtain ⟨p', hp', hq⟩ := exists_of_getElem?_applyAll h fun s hs hmem => by
      obtain ⟨s', -, rfl⟩ := mem_map.1 hs
      obtain ⟨_, -, hno⟩ := mem_map.1 hmem
      cases hno
    rw [getElem?_map, map_eq_some_iff] at hp'
    obtain ⟨p'', hget, hsm⟩ := hp'
    obtain ⟨_, hget⟩ := List.getElem?_eq_some_iff.1 hget
    rw [getElem_range] at hget
    rw [← allPlaces_tagged, ← some.inj hsm, ← hget]
    exact hq

end Splice

end USprache.Library
