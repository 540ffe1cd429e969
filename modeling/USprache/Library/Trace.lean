import Mathlib.Order.WellFoundedSet

/-!
# Traces and orders

A trace is a list of events, the oldest first.  `Trace.Always P` says that `P` holds of
every event and the events before it.

A list in which the predecessors of each element come before it contains no element of
a cycle, and a set without cycles has an element without predecessors in it.
-/

namespace USprache.Library

open Relation List

variable {E V : Type*}

def Trace.Always (P : List E → E → Prop) (trace : List E) : Prop :=
  ∀ before e after, trace = before ++ e :: after → P before e

namespace Trace.Always

variable {P : List E → E → Prop} {trace : List E}

theorem nil : Trace.Always P [] := by
  intro before e after h
  exact absurd (congrArg length h) (by simp)

theorem snoc (h : Trace.Always P trace) {e : E} (he : P trace e) :
    Trace.Always P (trace ++ [e]) := by
  intro pre e' post heq
  rcases eq_nil_or_concat post with rfl | ⟨post, last, rfl⟩
  · obtain ⟨rfl, hla⟩ := append_inj' heq rfl
    cases hla
    exact he
  · rw [concat_eq_append, ← cons_append, ← append_assoc] at heq
    exact h pre e' post (append_inj' heq rfl).1

theorem init {e : E} (h : Trace.Always P (trace ++ [e])) : Trace.Always P trace := by
  intro pre e' post hsp
  exact h pre e' (post ++ [e]) (by rw [hsp, append_assoc]; rfl)

theorem last {e : E} (h : Trace.Always P (trace ++ [e])) : P trace e := h trace e [] rfl

theorem nodup (h : Trace.Always P trace) (hP : ∀ pre e, P pre e → e ∉ pre) : trace.Nodup := by
  induction trace using reverseRecOn with
  | nil => exact nodup_nil
  | append_singleton trace e ih =>
    rw [← concat_eq_append, nodup_concat]
    exact ⟨hP trace e h.last, ih h.init⟩

end Trace.Always

def Precedes (r : V → V → Prop) (order : List V) : Prop :=
  Trace.Always (fun before i => ∀ j, r j i → j ∈ before) order

variable {r : V → V → Prop} {order : List V}

theorem exists_without_predecessors {S : Set V} (hS : S.Finite) (hne : S.Nonempty)
    (hacy : ∀ i, ¬TransGen r i i) : ∃ i ∈ S, ∀ j ∈ S, ¬r j i := by
  have : IsStrictOrder V (TransGen r) := { irrefl := hacy, trans := fun _ _ _ => .trans }
  have hwf : S.WellFoundedOn (TransGen r) := hS.wellFoundedOn
  obtain ⟨i, hi, hmin⟩ := hwf.has_min Set.univ ⟨⟨hne.some, hne.some_mem⟩, trivial⟩
  exact ⟨i, i.2, fun j hj hji => hmin ⟨j, hj⟩ trivial (.single hji)⟩

variable [DecidableEq V]

theorem Precedes.idxOf_lt (h : Precedes r order) {j i : V} (hi : i ∈ order) (hji : r j i) :
    order.idxOf j < order.idxOf i := by
  obtain ⟨pre, post, hsp, hbef⟩ := eq_append_cons_of_mem hi
  have hj : j ∈ pre := h pre i post hsp j hji
  rw [hsp, idxOf_append_of_mem hj, idxOf_append_of_notMem hbef, idxOf_cons_self]
  exact idxOf_lt_length_iff.2 hj

theorem Precedes.not_transGen_self (h : Precedes r order) {i : V} (hi : i ∈ order) :
    ¬TransGen r i i := by
  have hlt : ∀ j, TransGen r j i → order.idxOf j < order.idxOf i := by
    intro j hj
    induction hj using TransGen.head_induction_on with
    | single hji => exact h.idxOf_lt hi hji
    | head hjk _ ih =>
      have hmem := idxOf_lt_length_iff.1 (Nat.lt_trans ih (idxOf_lt_length_iff.2 hi))
      exact Nat.lt_trans (h.idxOf_lt hmem hjk) ih
  exact fun hii => Nat.lt_irrefl _ (hlt i hii)

end USprache.Library
