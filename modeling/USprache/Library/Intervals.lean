import Mathlib.Data.List.Chain
import Mathlib.Order.Interval.Set.Basic

/-!
# Lists of intervals

Intervals of integers in the order of their lower ends.  If none is empty, it is enough to
look at neighbours: no two have a common element exactly if each ends before the next begins,
and such intervals leave out nothing between two bounds exactly if the first begins at the
lower one, the last ends at the upper one and each begins right behind the one before.
-/

namespace USprache.Library

open List Option

abbrev Interval := Int × Int

namespace Interval

def Nonempty (a : Interval) : Prop := a.1 ≤ a.2

def Contains (a : Interval) (x : Int) : Prop := a.1 ≤ x ∧ x ≤ a.2

def Disjoint (a b : Interval) : Prop := ∀ x, ¬(a.Contains x ∧ b.Contains x)

variable {a b : Interval} {low high : Int}

theorem Disjoint.symm (h : a.Disjoint b) : b.Disjoint a := fun x hx => h x hx.symm

def Before (a b : Interval) : Prop := a.2 < b.1

def Touches (a b : Interval) : Prop := b.1 = a.2 + 1

theorem Before.disjoint (h : a.Before b) : a.Disjoint b := by
  intro x hx
  have hlt : a.2 < b.1 := h
  have hle := hx.1.2
  have hge := hx.2.1
  omega

theorem before_of_disjoint (hle : a.1 ≤ b.1) (hb : b.Nonempty) (h : a.Disjoint b) : a.Before b := by
  by_contra hlt
  have hlt : ¬a.2 < b.1 := hlt
  exact h b.1 ⟨⟨hle, by omega⟩, le_refl _, hb⟩

variable {l : List Interval}

theorem pairwise_before (hne : ∀ a ∈ l, a.Nonempty) (h : l.IsChain Before) : l.Pairwise Before := by
  induction l with
  | nil => exact .nil
  | cons a l ih =>
    have htl := ih (fun b hb => hne b (mem_cons_of_mem a hb)) h.tail
    refine pairwise_cons.2 ⟨?_, htl⟩
    intro b hb
    cases l with
    | nil => cases hb
    | cons c l =>
      have hac : a.2 < c.1 := (isChain_cons_cons.1 h).1
      rcases mem_cons.1 hb with rfl | hb
      · exact hac
      · have hcb : c.2 < b.1 := (pairwise_cons.1 htl).1 b hb
        have hc : c.1 ≤ c.2 := hne c (by simp)
        show a.2 < b.1
        omega

theorem pairwise_disjoint_iff (hne : ∀ a ∈ l, a.Nonempty)
    (hsrt : l.Pairwise fun a b => a.1 ≤ b.1) : l.Pairwise Disjoint ↔ l.IsChain Before := by
  constructor
  · intro h
    have hpr : l.Pairwise Before := by
      refine (h.and hsrt).imp_of_mem ?_
      intro a b _ hb hab
      exact before_of_disjoint hab.2 (hne b hb) hab.1
    exact hpr.isChain
  · intro h
    exact (pairwise_before hne h).imp fun hab => hab.disjoint

def Covers (l : List Interval) (low high : Int) : Prop :=
  ∀ x, low ≤ x → x ≤ high → ∃ a ∈ l, a.Contains x

theorem covers_nil : Covers [] low high ↔ high < low := by
  constructor
  · intro h
    by_contra hle
    obtain ⟨a, ha, _⟩ := h low le_rfl (by omega)
    cases ha
  · intro h x hlow hhi
    omega

theorem covers_cons (hbef : (a :: l).Pairwise Before)
    (hne : ∀ b ∈ a :: l, b.Nonempty) (hlow : low ≤ a.1) (hhi : a.2 ≤ high) :
    Covers (a :: l) low high ↔ a.1 = low ∧ Covers l (a.2 + 1) high := by
  have ha : a.1 ≤ a.2 := hne a (by simp)
  have hrs : ∀ b ∈ l, a.2 < b.1 := (pairwise_cons.1 hbef).1
  constructor
  · intro h
    constructor
    · obtain ⟨b, hb, hcon⟩ := h low le_rfl (by omega)
      rcases mem_cons.1 hb with rfl | hb
      · have := hcon.1
        omega
      · have := hrs b hb
        have := hcon.1
        omega
    · intro x hx hxhi
      obtain ⟨b, hb, hcon⟩ := h x (by omega) hxhi
      rcases mem_cons.1 hb with rfl | hb
      · have := hcon.2
        omega
      · exact ⟨b, hb, hcon⟩
  · rintro ⟨hfst, h⟩ x hxlow hxhi
    by_cases hx : x ≤ a.2
    · exact ⟨a, by simp, by omega, hx⟩
    · obtain ⟨b, hb, hcon⟩ := h x (by omega) hxhi
      exact ⟨b, mem_cons_of_mem a hb, hcon⟩

theorem covers_iff (hbef : l.Pairwise Before) (hne : ∀ a ∈ l, a.Nonempty)
    (hbou : ∀ a ∈ l, low ≤ a.1 ∧ a.2 ≤ high) (hle : low ≤ high) :
    Covers l low high ↔
      (∃ a ∈ l.head?, a.1 = low) ∧ l.IsChain Touches ∧ (∃ a ∈ l.getLast?, a.2 = high) := by
  induction l generalizing low with
  | nil =>
    rw [covers_nil]
    simp only [head?_nil, mem_def, reduceCtorEq, false_and, exists_false, iff_false]
    omega
  | cons a l ih =>
    have ha := hbou a (by simp)
    rw [covers_cons hbef hne ha.1 ha.2]
    cases l with
    | nil =>
      rw [covers_nil]
      simp
      omega
    | cons b l =>
      have hab : a.2 < b.1 := (pairwise_cons.1 hbef).1 b (by simp)
      have hb := hbou b (by simp)
      have hbne : b.1 ≤ b.2 := hne b (by simp)
      have htl := @ih (a.2 + 1) (pairwise_cons.1 hbef).2 (fun c hc => hne c (mem_cons_of_mem a hc))
        (fun c hc => ⟨(pairwise_cons.1 hbef).1 c hc, (hbou c (mem_cons_of_mem a hc)).2⟩)
        (by omega)
      rw [htl, isChain_cons_cons]
      simp only [head?_cons, mem_def, some.injEq, exists_eq_left']
      tauto

end Interval

end USprache.Library

/-!
## Alignment

The least multiple of an alignment that is not below an offset.
-/

namespace USprache.Library

/-- The first offset from `offset` on that an alignment divides. -/
def alignTo (offset alignment : Nat) : Nat := (offset + (alignment - 1)) / alignment * alignment

variable {offset alignment : Nat}

theorem dvd_alignTo : alignment ∣ alignTo offset alignment := Nat.dvd_mul_left ..

theorem le_alignTo (h : 0 < alignment) : offset ≤ alignTo offset alignment := by
  have hmod := Nat.mod_lt (offset + (alignment - 1)) h
  have hdiv := Nat.div_add_mod' (offset + (alignment - 1)) alignment
  unfold alignTo
  omega

theorem alignTo_lt (h : 0 < alignment) : alignTo offset alignment < offset + alignment := by
  have hdiv := Nat.div_add_mod' (offset + (alignment - 1)) alignment
  unfold alignTo
  omega

theorem alignTo_of_dvd (hpos : 0 < alignment) (h : alignment ∣ offset) :
    alignTo offset alignment = offset := by
  obtain ⟨k, rfl⟩ := h
  unfold alignTo
  rw [Nat.mul_add_div hpos, Nat.div_eq_of_lt (by omega), Nat.add_zero, Nat.mul_comm]

theorem alignTo_zero (h : 0 < alignment) : alignTo 0 alignment = 0 :=
  alignTo_of_dvd h (Nat.dvd_zero alignment)

theorem alignTo_le_of_dvd {d lim : Nat} (hpos : 0 < alignment) (hdvd : d ∣ alignment)
    (hoff : d ∣ offset) (hlim : offset < lim + d) :
    alignTo offset alignment < lim + alignment := by
  have hlt : alignTo offset alignment < offset + alignment := alignTo_lt hpos
  have hmul : d ∣ offset + alignment - alignTo offset alignment :=
    Nat.dvd_sub (Nat.dvd_add hoff hdvd) (Nat.dvd_trans hdvd dvd_alignTo)
  have hle := Nat.le_of_dvd (by omega) hmul
  omega

end USprache.Library
