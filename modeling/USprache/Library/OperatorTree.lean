import Mathlib.Data.List.Induction

/-!
# Trees of operators

A sequence of operands with operators between them is grouped by the priorities of the
operators, those of equal priority from the left.  There is one such tree for each sequence.
-/

namespace USprache.Library

inductive OperatorTree (α β : Type) where
  | leaf (a : α)
  | node (op : β) (l r : OperatorTree α β)

namespace OperatorTree

variable {α β : Type} (priority : β → Nat)

def first : OperatorTree α β → α
  | leaf a => a
  | node _ l _ => l.first

def rest : OperatorTree α β → List (β × α)
  | leaf _ => []
  | node op l r => l.rest ++ (op, r.first) :: r.rest

def AtLeast (p : Nat) : OperatorTree α β → Prop
  | leaf _ => True
  | node op _ _ => p ≤ priority op

/-- Operators of higher priority are below, those of equal priority on the left. -/
def Grouped : OperatorTree α β → Prop
  | leaf _ => True
  | node op l r =>
    (l.AtLeast priority (priority op) ∧ r.AtLeast priority (priority op + 1)) ∧ l.Grouped ∧ r.Grouped

def push : OperatorTree α β → β → α → OperatorTree α β
  | leaf b, op, a => node op (leaf b) (leaf a)
  | node op' l r, op, a =>
    if priority op ≤ priority op' then node op (node op' l r) (leaf a) else node op' l (push r op a)

variable {priority} {t t' : OperatorTree α β} {op : β} {a : α} {p : Nat} {xs : List (β × α)}

theorem atLeast_push_iff :
    (push priority t op a).AtLeast priority p ↔ p ≤ priority op ∧ t.AtLeast priority p := by
  cases t with
  | leaf b => exact ⟨fun hp => ⟨hp, trivial⟩, fun hp => hp.1⟩
  | node op' l r =>
    rw [push]
    split_ifs with h
    · exact ⟨fun hp => ⟨hp, Nat.le_trans hp h⟩, fun hp => hp.1⟩
    · exact ⟨fun hp => ⟨Nat.le_trans hp (Nat.le_of_not_le h), hp⟩, fun hp => hp.2⟩

theorem Grouped.push (h : t.Grouped priority) : (push priority t op a).Grouped priority := by
  induction t with
  | leaf b => exact ⟨⟨trivial, trivial⟩, trivial, trivial⟩
  | node op' l r _ ih =>
    rw [OperatorTree.push]
    split_ifs with hle
    · exact ⟨⟨hle, trivial⟩, h, trivial⟩
    · exact ⟨⟨h.1.1, atLeast_push_iff.2 ⟨Nat.lt_of_not_le hle, h.1.2⟩⟩, h.2.1, ih h.2.2⟩

theorem first_push : (push priority t op a).first = t.first := by
  cases t with
  | leaf b => rfl
  | node op' l r =>
    rw [push]
    split_ifs <;> rfl

theorem rest_push : (push priority t op a).rest = t.rest ++ [(op, a)] := by
  induction t with
  | leaf b => rfl
  | node op' l r _ ih =>
    rw [push]
    split_ifs
    · rfl
    · rw [rest, ih, first_push, rest, List.append_assoc, List.cons_append]

theorem Grouped.pop (h : t.Grouped priority) : ∀ xs, t.rest = xs ++ [(op, a)] →
    ∃ t', t'.Grouped priority ∧ t'.first = t.first ∧ t'.rest = xs ∧ t = OperatorTree.push priority t' op a := by
  induction t with
  | leaf b => exact fun xs hxs => absurd hxs.symm (List.concat_ne_nil _ _)
  | node op' l r _ ih =>
    intro xs hxs
    obtain ⟨⟨hl, hr⟩, hgl, hgr⟩ := h
    cases r with
    | leaf b =>
      obtain ⟨rfl, hlast⟩ := List.append_inj' hxs rfl
      obtain ⟨rfl, rfl⟩ := Prod.mk.inj (List.singleton_inj.1 hlast)
      refine ⟨l, hgl, rfl, rfl, ?_⟩
      cases l with
      | leaf c => rfl
      | node op'' l' r' => exact (if_pos hl).symm
    | node op'' l' r' =>
      generalize hright : node op'' l' r' = r at hxs hr hgr ih
      have hne : r.rest ≠ [] := hright ▸ List.append_ne_nil_of_right_ne_nil _ (List.cons_ne_nil _ _)
      obtain ⟨ys, y, hys⟩ := r.rest.eq_nil_or_concat.resolve_left hne
      rw [List.concat_eq_append] at hys
      rw [rest, hys, ← List.cons_append, ← List.append_assoc] at hxs
      obtain ⟨rfl, hlast⟩ := List.append_inj' hxs rfl
      obtain rfl := List.singleton_inj.1 hlast
      obtain ⟨t, ht, hfirst, rfl, rfl⟩ := ih hgr ys hys
      obtain ⟨hlt, hat⟩ := atLeast_push_iff.1 hr
      refine ⟨node op' l t, ⟨⟨hl, hat⟩, hgl, ht⟩, rfl, by rw [rest, hfirst], ?_⟩
      rw [OperatorTree.push, if_neg (Nat.not_le_of_lt hlt)]

theorem Grouped.eq : ∀ {xs} {t t' : OperatorTree α β}, t.Grouped priority → t'.Grouped priority →
    t.first = t'.first → t.rest = xs → t'.rest = xs → t = t' := by
  intro xs
  induction xs using List.reverseRecOn with
  | nil =>
    intro t t' _ _ hfirst h h'
    cases t with
    | leaf b =>
      cases t' with
      | leaf b' => exact congrArg leaf hfirst
      | node op l r => exact absurd h' (List.append_ne_nil_of_right_ne_nil _ (List.cons_ne_nil _ _))
    | node op l r => exact absurd h (List.append_ne_nil_of_right_ne_nil _ (List.cons_ne_nil _ _))
  | append_singleton xs y ih =>
    intro t t' hg hg' hfirst h h'
    obtain ⟨t0, hg0, hf0, hr0, rfl⟩ := hg.pop xs h
    obtain ⟨t1, hg1, hf1, hr1, rfl⟩ := hg'.pop xs h'
    rw [first_push, first_push] at hfirst
    rw [ih hg0 hg1 hfirst hr0 hr1]

variable (priority) in
theorem exists_grouped (a : α) (xs : List (β × α)) : ∃ t : OperatorTree α β,
    ∀ t' : OperatorTree α β, t'.Grouped priority ∧ t'.first = a ∧ t'.rest = xs ↔ t' = t := by
  obtain ⟨t, hg, hfirst, hrest⟩ : ∃ t : OperatorTree α β,
      t.Grouped priority ∧ t.first = a ∧ t.rest = xs := by
    induction xs using List.reverseRecOn with
    | nil => exact ⟨leaf a, trivial, rfl, rfl⟩
    | append_singleton xs y ih =>
      obtain ⟨t, hg, hfirst, hrest⟩ := ih
      exact ⟨push priority t y.1 y.2, hg.push, first_push.trans hfirst, rest_push.trans (by rw [hrest])⟩
  refine ⟨t, fun t' => ⟨fun h => h.1.eq hg (h.2.1.trans hfirst.symm) h.2.2 hrest, ?_⟩⟩
  rintro rfl
  exact ⟨hg, hfirst, hrest⟩

end OperatorTree

end USprache.Library
