import Mathlib.Data.BitVec
import USprache.CodeBuilder.SwitchOperator
import USprache.Library.Intervals

/-!
# Ranges of a switch as intervals

The bit patterns of a type have numbers from its lower limit to its upper one, and a
difference of bit patterns is only compared with zero.  The checks of the sorted ranges find
an overlap exactly if an interval does not end before the next begins, and a gap exactly if the
intervals leave out a number between the limits.
-/

namespace USprache.CodeBuilder.Switch

open Library List Option Nat BitVec CaseRange SwitchType

variable {target : TargetPointers} {T : SwitchType target}

namespace SwitchType

def number (T : SwitchType target) (x : BitVec T.bitWidth) : Int :=
  if T.isSigned then x.toInt else x.toNat

variable {x y : BitVec T.bitWidth}

theorem lt_iff : T.lt x y ↔ T.number x < T.number y := by
  unfold lt number
  split
  · exact slt_iff_toInt_lt
  · rw [ult_iff_toNat_lt]
    exact Int.ofNat_lt.symm

theorem le_iff : T.le x y ↔ T.number x ≤ T.number y := by
  unfold le number
  split
  · exact sle_iff_toInt_le
  · rw [ule_iff_toNat_le]
    exact Int.ofNat_le.symm

theorem number_inj : T.number x = T.number y ↔ x = y := by
  unfold number
  split
  · exact toInt_inj
  · rw [Int.ofNat_inj]
    exact toNat_inj

theorem bitWidth_pos (T : SwitchType target) : 0 < T.bitWidth := by
  cases T with
  | enum t => exact FundamentalType.bitWidth_pos target (by simp [t.integer])
  | fundamental t h => exact FundamentalType.bitWidth_pos target h

theorem elementCount_le (t : EnumType target) :
    t.elementCount ≤ 2 ^ t.underlyingType.bitWidth target := by
  by_cases h : t.underlyingType.bitWidth target < 32
  · calc t.elementCount ≤ 2 ^ (t.underlyingType.bitWidth target -
            if t.underlyingType.isSignedInteger then 1 else 0) - 1 := t.fits h
      _ ≤ 2 ^ (t.underlyingType.bitWidth target -
            if t.underlyingType.isSignedInteger then 1 else 0) := sub_le _ _
      _ ≤ 2 ^ t.underlyingType.bitWidth target := Nat.pow_le_pow_right (by decide) (sub_le _ _)
  · exact le_trans t.few (Nat.pow_le_pow_right (by decide) (by omega))

def lowNumber : SwitchType target → Int
  | enum _ => 0
  | fundamental type _ =>
    if type.isSignedInteger then -2 ^ (type.bitWidth target - 1) else 0

def highNumber : SwitchType target → Int
  | enum type => type.elementCount - 1
  | fundamental type _ =>
    if type.isSignedInteger then 2 ^ (type.bitWidth target - 1) - 1
    else 2 ^ type.bitWidth target - 1

theorem number_typeLow (T : SwitchType target) : T.number T.typeLow = T.lowNumber := by
  cases T with
  | enum t => rfl
  | fundamental t accepted =>
    simp only [number, typeLow, lowNumber, isSigned]
    split
    · exact toInt_intMin_of_pos (FundamentalType.bitWidth_pos target accepted)
    · rfl

theorem number_typeHigh (T : SwitchType target) : T.number T.typeHigh = T.highNumber := by
  cases T with
  | enum t =>
    have hle := elementCount_le t
    have hpos := t.nonempty
    show ((BitVec.ofNat (t.underlyingType.bitWidth target) (t.elementCount - 1)).toNat : Int) =
      t.elementCount - 1
    rw [toNat_ofNat, mod_eq_of_lt (by omega)]
    omega
  | fundamental t accepted =>
    simp only [number, typeHigh, highNumber, isSigned]
    split
    · exact toInt_intMax
    · show ((allOnes (t.bitWidth target)).toNat : Int) = 2 ^ t.bitWidth target - 1
      have hpow := Nat.two_pow_pos (t.bitWidth target)
      rw [toNat_allOnes, cast_sub (by omega)]
      rfl

/-- The values of a type are the bit patterns with numbers between its limits. -/
theorem holds_iff (T : SwitchType target) (x : BitVec T.bitWidth) :
    T.Holds x ↔ T.lowNumber ≤ T.number x ∧ T.number x ≤ T.highNumber := by
  cases T with
  | enum t =>
    simp only [Holds, number, isSigned, lowNumber, highNumber, Bool.false_eq_true, if_false]
    omega
  | fundamental t accepted =>
    by_cases hsg : t.isSignedInteger
    · simp only [Holds, number, isSigned, lowNumber, highNumber, hsg, true_iff]
      exact ⟨le_toInt x, Int.le_sub_one_of_lt toInt_lt⟩
    · have hlt : x.toNat < 2 ^ t.bitWidth target := x.isLt
      simp only [Holds, number, isSigned, lowNumber, highNumber, hsg, Bool.false_eq_true,
        if_false, true_iff]
      refine ⟨Int.natCast_nonneg _, Int.le_sub_one_of_lt ?_⟩
      exact_mod_cast hlt

theorem lowNumber_le_highNumber (T : SwitchType target) : T.lowNumber ≤ T.highNumber := by
  cases T with
  | enum t =>
    have hpos := t.nonempty
    simp only [lowNumber, highNumber]
    omega
  | fundamental t accepted =>
    have hh := ((@fundamental target t accepted).holds_iff 0).1 trivial
    exact le_trans hh.1 hh.2

theorem number_ofInt {n : Int} (hx : T.number x ≤ n)
    (hy : n ≤ T.number y) : T.number (BitVec.ofInt _ n) = n := by
  by_cases hsg : T.isSigned
  · simp only [number, hsg] at hx hy ⊢
    exact toInt_ofInt_eq_self T.bitWidth_pos (le_trans (le_toInt x) hx) (lt_of_le_of_lt hy toInt_lt)
  · simp only [number, hsg, Bool.false_eq_true, if_false] at hx hy ⊢
    obtain ⟨k, rfl⟩ := Int.eq_ofNat_of_zero_le (le_trans (Int.natCast_nonneg _) hx)
    have hk : k < 2 ^ T.bitWidth := lt_of_le_of_lt (Int.ofNat_le.1 hy) y.isLt
    rw [ofInt_natCast, toNat_ofNat, mod_eq_of_lt hk]

theorem exists_number {n : Int} (hlow : T.lowNumber ≤ n) (hhi : n ≤ T.highNumber) :
    ∃ v : T.Value, T.number v.1 = n := by
  have hnum : T.number (BitVec.ofInt _ n) = n :=
    number_ofInt (x := T.typeLow) (y := T.typeHigh) (by rwa [number_typeLow])
      (by rwa [number_typeHigh])
  exact ⟨⟨BitVec.ofInt _ n, (T.holds_iff _).2 (by rw [hnum]; exact ⟨hlow, hhi⟩)⟩, hnum⟩

theorem ofInt_number (x : BitVec T.bitWidth) : BitVec.ofInt _ (T.number x) = x := by
  unfold number
  split
  · exact ofInt_toInt
  · rw [ofInt_natCast, ofNat_toNat, setWidth_eq]

theorem gap_eq_zero_iff (h : T.number x < T.number y) :
    y - x - 1 = 0 ↔ T.number y = T.number x + 1 := by
  have hnx : T.number (BitVec.ofInt _ (T.number x + 1)) = T.number x + 1 :=
    number_ofInt (x := x) (y := y) (by omega) (by omega)
  have hadd : BitVec.ofInt T.bitWidth (T.number x + 1) = x + 1 := by
    rw [ofInt_add, ofInt_number]
    rfl
  rw [sub_eq_zero, sub_eq_iff_eq_add, add_comm, ← hadd, ← number_inj, hnx]

end SwitchType

def CaseRange.interval (T : SwitchType target) (range : CaseRange T.bitWidth) : Interval :=
  (T.number range.low, T.number range.high)

structure ValidRange (T : SwitchType target) (range : CaseRange T.bitWidth) : Prop where
  nonempty : (range.interval T).Nonempty
  low_le : T.lowNumber ≤ T.number range.low
  high_le : T.number range.high ≤ T.highNumber

section Checks

variable {hasDefault : Bool} {w : Nat} {checks : RangeChecks w} {gapSz : BitVec w}
  {forOne forMore : SwitchError w}

theorem gap_errors : (checks.gap hasDefault gapSz forOne forMore).errors = [] ↔
    checks.errors = [] ∧ (hasDefault = false → gapSz = 0) := by
  unfold RangeChecks.gap
  by_cases h : gapSz = 0
  · rw [if_pos h]
    tauto
  · rw [if_neg h]
    cases hasDefault with
    | false => simp only [append_eq_nil_iff]; tauto
    | true => simp only [if_true, append_nil]; tauto

theorem gap_hasGaps : (checks.gap hasDefault gapSz forOne forMore).hasGaps = false ↔
    checks.hasGaps = false ∧ gapSz = 0 := by
  unfold RangeChecks.gap
  by_cases h : gapSz = 0
  · rw [if_pos h]
    tauto
  · rw [if_neg h]
    tauto

end Checks

variable {hasDefault : Bool} {checks : RangeChecks T.bitWidth}
    {ranges : List (CaseRange T.bitWidth)}

theorem checkNeighbours_errors {cur next : CaseRange T.bitWidth} :
    (checkNeighbours T hasDefault cur next checks).errors = [] ↔
      checks.errors = [] ∧ (cur.interval T).Before (next.interval T) ∧
        (hasDefault = false → (cur.interval T).Touches (next.interval T)) := by
  unfold checkNeighbours
  by_cases hlt : T.lt cur.high next.low
  · have hbef := lt_iff.1 hlt
    simp only [hlt, if_true]
    rw [gap_errors, gap_eq_zero_iff hbef]
    exact and_congr_right fun _ => (and_iff_right hbef).symm
  · have hbef : ¬(cur.interval T).Before (next.interval T) := fun h => hlt (lt_iff.2 h)
    simp [hlt, hbef]

theorem checkNeighbours_hasGaps {cur next : CaseRange T.bitWidth}
    (h : (cur.interval T).Before (next.interval T)) :
    (checkNeighbours T hasDefault cur next checks).hasGaps = false ↔
      checks.hasGaps = false ∧ (cur.interval T).Touches (next.interval T) := by
  have hlt : T.lt cur.high next.low := lt_iff.2 h
  unfold checkNeighbours
  simp only [hlt, if_true]
  rw [gap_hasGaps, gap_eq_zero_iff h]
  rfl

theorem checkAllNeighbours_errors (ranges : List (CaseRange T.bitWidth))
    (checks : RangeChecks T.bitWidth) :
    (checkAllNeighbours T hasDefault ranges checks).errors = [] ↔
      checks.errors = [] ∧ (ranges.map (interval T)).IsChain Interval.Before ∧
        (hasDefault = false → (ranges.map (interval T)).IsChain Interval.Touches) := by
  induction ranges generalizing checks with
  | nil => simp [checkAllNeighbours]
  | cons current ranges ih =>
    cases ranges with
    | nil => simp [checkAllNeighbours]
    | cons next ranges =>
      rw [checkAllNeighbours, ih, checkNeighbours_errors]
      simp only [map_cons, isChain_cons_cons]
      tauto

theorem checkAllNeighbours_hasGaps (h : (ranges.map (interval T)).IsChain Interval.Before) :
    (checkAllNeighbours T hasDefault ranges checks).hasGaps = false ↔
      checks.hasGaps = false ∧ (ranges.map (interval T)).IsChain Interval.Touches := by
  induction ranges generalizing checks with
  | nil => simp [checkAllNeighbours]
  | cons current ranges ih =>
    cases ranges with
    | nil => simp [checkAllNeighbours]
    | cons next ranges =>
      simp only [map_cons, isChain_cons_cons] at h ih ⊢
      rw [checkAllNeighbours, ih h.2, checkNeighbours_hasGaps h.1]
      tauto

/-- The ranges leave out no value between the limits of the type. -/
def NoGaps (T : SwitchType target) (ranges : List (CaseRange T.bitWidth)) : Prop :=
  Interval.Covers (ranges.map (interval T)) T.lowNumber T.highNumber

theorem noGaps_iff (hok : ∀ r ∈ ranges, ValidRange T r)
    (hbef : (ranges.map (interval T)).IsChain Interval.Before) :
    NoGaps T ranges ↔ (∃ r ∈ ranges.head?, r.low - T.typeLow = 0) ∧
        (ranges.map (interval T)).IsChain Interval.Touches ∧
        ∃ r ∈ ranges.getLast?, T.typeHigh - r.high = 0 := by
  have hne : ∀ a ∈ ranges.map (interval T), a.Nonempty := by
    intro a ha
    obtain ⟨r, hr, rfl⟩ := mem_map.1 ha
    exact (hok r hr).nonempty
  have hbou : ∀ a ∈ ranges.map (interval T), T.lowNumber ≤ a.1 ∧ a.2 ≤ T.highNumber := by
    intro a ha
    obtain ⟨r, hr, rfl⟩ := mem_map.1 ha
    exact ⟨(hok r hr).low_le, (hok r hr).high_le⟩
  rw [NoGaps, Interval.covers_iff (Interval.pairwise_before hne hbef) hne hbou
    T.lowNumber_le_highNumber]
  simp only [sub_eq_zero, head?_map, getLast?_map, mem_def, map_eq_some_iff,
    ← number_inj, number_typeLow, number_typeHigh]
  simp only [interval, ↓existsAndEq, and_true, eq_comm (a := T.highNumber)]

theorem checkRanges_iff (srcLoc : Nat) (hok : ∀ r ∈ ranges, ValidRange T r) :
    ((checkRanges T srcLoc hasDefault ranges).errors = [] ↔
      (ranges.map (interval T)).IsChain Interval.Before ∧ (hasDefault = false → NoGaps T ranges)) ∧
    ((ranges.map (interval T)).IsChain Interval.Before →
      ((checkRanges T srcLoc hasDefault ranges).hasGaps = false ↔ NoGaps T ranges)) := by
  cases ranges with
  | nil =>
    have hgaps : ¬NoGaps T [] := fun h => by
      have := Interval.covers_nil.1 h
      have := T.lowNumber_le_highNumber
      omega
    constructor
    · cases hasDefault with
      | false =>
        simp only [checkRanges, head?_nil, hgaps, Bool.false_eq_true,
          if_false]
        split <;> simp
      | true => simp [checkRanges, checkAllNeighbours]
    · intro _
      simp [checkRanges, hgaps]
  | cons first ranges =>
    obtain ⟨last, hla⟩ : ∃ last, (first :: ranges).getLast? = some last := ⟨_, getLast?_cons⟩
    have hchks : checkRanges T srcLoc hasDefault (first :: ranges) =
        checkEnd T hasDefault last (checkBegin T hasDefault first
          (checkAllNeighbours T hasDefault (first :: ranges) {})) := by
      simp only [checkRanges, head?_cons, hla]
    have hnoGaps : ((first :: ranges).map (interval T)).IsChain Interval.Before →
        (NoGaps T (first :: ranges) ↔ first.low - T.typeLow = 0 ∧
          ((first :: ranges).map (interval T)).IsChain Interval.Touches ∧
          T.typeHigh - last.high = 0) := by
      intro hbef
      rw [noGaps_iff hok hbef, hla]
      simp only [head?_cons, mem_def, some.injEq, exists_eq_left']
    rw [hchks]
    constructor
    · rw [checkEnd, gap_errors, checkBegin, gap_errors, checkAllNeighbours_errors]
      constructor
      · rintro ⟨⟨⟨_, hbef, htou⟩, hfst⟩, hend⟩
        exact ⟨hbef, fun h => (hnoGaps hbef).2 ⟨hfst h, htou h, hend h⟩⟩
      · rintro ⟨hbef, h⟩
        have hpts := fun hd => (hnoGaps hbef).1 (h hd)
        exact ⟨⟨⟨rfl, hbef, fun hd => (hpts hd).2.1⟩, fun hd => (hpts hd).1⟩,
          fun hd => (hpts hd).2.2⟩
    · intro hbef
      rw [checkEnd, gap_hasGaps, checkBegin, gap_hasGaps, checkAllNeighbours_hasGaps hbef]
      tauto

end USprache.CodeBuilder.Switch
