import USprache.CodeBuilder.SwitchRanges

/-!
# Switch checking is exact

Each case value is a set of values of the type.  The builder accepts a switch exactly if
these sets are not empty and have no common elements, and if they are all values exactly
when there is no default branch.  The generated code then transfers each value to the branch
that has it.
-/

namespace USprache.CodeBuilder.Switch

open Library List SwitchType CaseExpression

variable {target : TargetPointers} {T : SwitchType target}

/-! ## The cases -/

def CaseExpression.isConstant : CaseExpression T → Bool
  | constant _ _ => true
  | _ => false

def CaseValue.isConstant : CaseValue T → Bool
  | single expression => expression.isConstant
  | range low high => low.all CaseExpression.isConstant && high.all CaseExpression.isConstant

theorem CaseExpression.eq_constant {e : CaseExpression T} (h : e.isConstant) :
    ∃ srcLoc v, e = constant srcLoc v := by
  cases e with
  | ofOtherType srcLoc => cases h
  | notConstant srcLoc => cases h
  | constant srcLoc v => exact ⟨srcLoc, v, rfl⟩

def CaseValue.Contains : CaseValue T → T.Value → Prop
  | single expression, v => ∃ srcLoc, expression = .constant srcLoc v
  | range low high, v =>
    (∀ srcLoc value, low = some (.constant srcLoc value) → T.number value.1 ≤ T.number v.1) ∧
      ∀ srcLoc value, high = some (.constant srcLoc value) → T.number v.1 ≤ T.number value.1

theorem value_bounds (v : T.Value) : T.lowNumber ≤ T.number v.1 ∧ T.number v.1 ≤ T.highNumber :=
  (T.holds_iff v.1).1 v.2

theorem rangeConstant_low {low : Option (CaseExpression T)} (h : low.all isConstant) :
    ∃ x, rangeConstant T.typeLow low = (x, []) ∧ T.Holds x ∧
      ∀ v : T.Value, (∀ srcLoc val, low = some (.constant srcLoc val) →
        T.number val.1 ≤ T.number v.1) ↔ T.number x ≤ T.number v.1 := by
  cases low with
  | none =>
    refine ⟨T.typeLow, rfl, ?_, ?_⟩
    · rw [holds_iff, number_typeLow]
      exact ⟨le_rfl, T.lowNumber_le_highNumber⟩
    · intro v
      rw [number_typeLow]
      simp [(value_bounds v).1]
  | some expression =>
    obtain ⟨srcLoc, val, rfl⟩ := eq_constant h
    refine ⟨val.1, rfl, val.2, ?_⟩
    intro v
    constructor
    · intro hle
      exact hle srcLoc val rfl
    · rintro hle _ _ heq
      cases heq
      exact hle

theorem rangeConstant_high {high : Option (CaseExpression T)} (h : high.all isConstant) :
    ∃ x, rangeConstant T.typeHigh high = (x, []) ∧ T.Holds x ∧
      ∀ v : T.Value, (∀ srcLoc val, high = some (.constant srcLoc val) →
        T.number v.1 ≤ T.number val.1) ↔ T.number v.1 ≤ T.number x := by
  cases high with
  | none =>
    refine ⟨T.typeHigh, rfl, ?_, ?_⟩
    · rw [holds_iff, number_typeHigh]
      exact ⟨T.lowNumber_le_highNumber, le_rfl⟩
    · intro v
      rw [number_typeHigh]
      simp [(value_bounds v).2]
  | some expression =>
    obtain ⟨srcLoc, val, rfl⟩ := eq_constant h
    refine ⟨val.1, rfl, val.2, ?_⟩
    intro v
    constructor
    · intro hle
      exact hle srcLoc val rfl
    · rintro hle _ _ heq
      cases heq
      exact hle

structure RangeOf (value : CaseValue T) (range : CaseRange T.bitWidth) : Prop where
  valid : ValidRange T range
  contains_iff (v : T.Value) : value.Contains v ↔ (range.interval T).Contains (T.number v.1)

variable {r : CaseRange T.bitWidth}

theorem RangeOf.exists_contains {val : CaseValue T} (h : RangeOf val r) : ∃ v, val.Contains v := by
  obtain ⟨v, hv⟩ := exists_number (T := T) h.valid.low_le
    (le_trans h.valid.nonempty h.valid.high_le)
  refine ⟨v, (h.contains_iff v).2 ?_⟩
  rw [hv]
  exact ⟨le_rfl, h.valid.nonempty⟩

theorem caseRange_cases {value : CaseValue T} (hc : value.isConstant) (srcLoc : Nat) :
    (∃ range, caseRange srcLoc value = (some range, []) ∧ RangeOf value range) ∨
      (∃ low high, caseRange srcLoc value = (none, [.switchInvalidRange srcLoc low high])) ∧
        ∀ v, ¬value.Contains v := by
  cases value with
  | single expression =>
    obtain ⟨valueSrcLoc, value, rfl⟩ := eq_constant hc
    have hbou := value_bounds value
    refine .inl ⟨⟨value.1, value.1, valueSrcLoc⟩, rfl, ⟨le_rfl, hbou.1, hbou.2⟩, ?_⟩
    intro v
    constructor
    · rintro ⟨_, heq⟩
      cases heq
      exact ⟨le_rfl, le_rfl⟩
    · intro hcon
      have hv : v.1 = value.1 := number_inj.1 (le_antisymm hcon.2 hcon.1)
      exact ⟨valueSrcLoc, by rw [Subtype.ext hv]⟩
  | range low high =>
    rw [CaseValue.isConstant, Bool.and_eq_true] at hc
    obtain ⟨x, hx, hxho, hxle⟩ := rangeConstant_low hc.1
    obtain ⟨y, hy, hyho, hyle⟩ := rangeConstant_high hc.2
    have hcon : ∀ v, (CaseValue.range low high).Contains v ↔
        T.number x ≤ T.number v.1 ∧ T.number v.1 ≤ T.number y :=
      fun v => and_congr (hxle v) (hyle v)
    simp only [caseRange, hx, hy]
    by_cases hle : T.le x y
    · rw [if_pos hle]
      exact .inl ⟨_, rfl, ⟨le_iff.1 hle, ((T.holds_iff x).1 hxho).1,
        ((T.holds_iff y).1 hyho).2⟩, hcon⟩
    · rw [if_neg hle]
      refine .inr ⟨⟨x, y, rfl⟩, ?_⟩
      intro v hv
      have := (hcon v).1 hv
      exact hle (le_iff.2 (le_trans this.1 this.2))

def Case.isDefault (case_ : Case T) : Bool :=
  match case_.values with
  | .list _ _ => false
  | .defaultPlaceholder => true

def Case.ranges (case_ : Case T) : List (CaseRange T.bitWidth) :=
  case_.values.toList.filterMap fun value => (caseRange case_.srcLoc value).1

variable (cases : List (Case T))

theorem branchesRanges_evaluateCases :
    (evaluateCases cases).branchesRanges = cases.map Case.ranges := by
  induction cases using reverseRecOn with
  | nil => rfl
  | append_singleton cases c ih =>
    rw [evaluateCases, foldl_concat, ← evaluateCases, map_append, ← ih, addCase]
    cases hvs : c.values with
    | list first others =>
      simp only [map_singleton, Case.ranges, hvs, filterMap_map]
      rfl
    | defaultPlaceholder =>
      simp only [map_singleton, Case.ranges, hvs, CaseValues.toList, filterMap_nil]

theorem defaultBranch_evaluateCases :
    (evaluateCases cases).defaultBranch = cases.findIdx? Case.isDefault := by
  induction cases using reverseRecOn with
  | nil => rfl
  | append_singleton cases c ih =>
    have hlen : (evaluateCases cases).branchesRanges.length = cases.length := by
      rw [branchesRanges_evaluateCases, length_map]
    rw [evaluateCases, foldl_concat, ← evaluateCases, findIdx?_append, ← ih, addCase]
    cases hvs : c.values with
    | list first others => simp [Case.isDefault, hvs]
    | defaultPlaceholder => simp [Case.isDefault, hvs, hlen]

def caseValues : List (CaseValue T) :=
  cases.flatMap fun case_ => case_.values.toList

theorem mem_caseValues {cases : List (Case T)} {v : CaseValue T} :
    v ∈ caseValues cases ↔ ∃ c ∈ cases, v ∈ c.values.toList :=
  mem_flatMap

/-- Errors in the evaluation of constants: an empty range, or a second default branch. -/
theorem mem_errors_evaluateCases {cases : List (Case T)}
    (hc : ∀ val ∈ caseValues cases, val.isConstant)
    (hdf : cases.countP Case.isDefault ≤ 1) :
    (∀ err ∈ (evaluateCases cases).errors, ∃ srcLoc low high,
        err = .switchInvalidRange srcLoc low high) ∧
      ((evaluateCases cases).errors = [] ↔ ∀ val ∈ caseValues cases, ∃ v, val.Contains v) := by
  induction cases using reverseRecOn with
  | nil => simp [evaluateCases, caseValues]
  | append_singleton cases c ih =>
    have happ : caseValues (cases ++ [c]) = caseValues cases ++ c.values.toList := by
      simp [caseValues]
    rw [happ] at hc ⊢
    simp only [countP_append, countP_singleton] at hdf
    obtain ⟨hk, hnil⟩ := ih (fun val h => hc val (mem_append_left _ h)) (by omega)
    rw [evaluateCases, foldl_concat, ← evaluateCases, addCase]
    cases hvs : c.values with
    | list first others =>
      simp only [hvs] at hc ⊢
      have hv : ∀ val ∈ first :: others, (∀ err ∈ (caseRange c.srcLoc val).2, ∃ srcLoc low high,
            err = .switchInvalidRange srcLoc low high) ∧
          ((caseRange c.srcLoc val).2 = [] ↔ ∃ v, val.Contains v) := by
        intro val hmem
        rcases caseRange_cases (hc val (mem_append_right _ hmem)) c.srcLoc with
          ⟨range, heq, hrg⟩ | ⟨⟨low, high, heq⟩, he⟩
        · rw [heq]
          exact ⟨by simp, by simp [hrg.exists_contains]⟩
        · rw [heq]
          exact ⟨by simp, by simp [he]⟩
      constructor
      · intro err herr
        rcases mem_append.1 herr with herr | herr
        · exact hk err herr
        · obtain ⟨pair, hpr, herr⟩ := mem_flatMap.1 herr
          obtain ⟨val, hmem, rfl⟩ := mem_map.1 hpr
          exact (hv val hmem).1 err herr
      · rw [append_eq_nil_iff, hnil, flatMap_map, flatMap_eq_nil_iff, forall_mem_append]
        exact and_congr_right fun _ => forall₂_congr fun val hmem => (hv val hmem).2
    | defaultPlaceholder =>
      -- No case before is a default one.
      have hbef : (evaluateCases cases).defaultBranch = none := by
        rw [defaultBranch_evaluateCases]
        simp only [Case.isDefault, hvs, if_true] at hdf
        simpa using countP_eq_zero.1 (show cases.countP Case.isDefault = 0 by omega)
      simp only [hbef, Option.isSome_none, Bool.false_eq_true, if_false, append_nil,
        CaseValues.toList]
      exact ⟨hk, hnil⟩

/-! ## What the ranges say of the case values -/

variable {vs : List (CaseValue T)}

theorem forall₂_ranges {srcLoc : Nat} (hc : ∀ val ∈ vs, val.isConstant)
    (hne : ∀ val ∈ vs, ∃ v, val.Contains v) :
    Forall₂ RangeOf vs (vs.filterMap fun val => (caseRange srcLoc val).1) := by
  induction vs with
  | nil => exact .nil
  | cons val vs ih =>
    have htl := ih (fun val h => hc val (mem_cons_of_mem _ h))
      (fun val h => hne val (mem_cons_of_mem _ h))
    rcases caseRange_cases (hc val (by simp)) srcLoc with
      ⟨range, heq, hrg⟩ | ⟨_, he⟩
    · rw [filterMap_cons, heq]
      exact .cons hrg htl
    · obtain ⟨v, hv⟩ := hne val (by simp)
      exact absurd hv (he v)

theorem forall₂_allRanges {cases : List (Case T)} (hc : ∀ val ∈ caseValues cases, val.isConstant)
    (hne : ∀ val ∈ caseValues cases, ∃ v, val.Contains v) :
    Forall₂ RangeOf (caseValues cases) (cases.map Case.ranges).flatten := by
  induction cases with
  | nil => exact .nil
  | cons case_ cases ih =>
    simp only [caseValues, flatMap_cons, forall_mem_append] at hc hne
    exact rel_append (forall₂_ranges hc.1 hne.1) (ih hc.2 hne.2)

def CaseValue.Disjoint (a b : CaseValue T) : Prop := ∀ v, ¬(a.Contains v ∧ b.Contains v)

theorem RangeOf.disjoint_iff {a b : CaseValue T} {s : CaseRange T.bitWidth} (ha : RangeOf a r)
    (hb : RangeOf b s) : a.Disjoint b ↔ (r.interval T).Disjoint (s.interval T) := by
  constructor
  · rintro h n ⟨hr, hs⟩
    obtain ⟨v, rfl⟩ := exists_number (T := T) (le_trans ha.valid.low_le hr.1)
      (le_trans hr.2 ha.valid.high_le)
    exact h v ⟨(ha.contains_iff v).2 hr, (hb.contains_iff v).2 hs⟩
  · rintro h v ⟨hr, hs⟩
    exact h (T.number v.1) ⟨(ha.contains_iff v).1 hr, (hb.contains_iff v).1 hs⟩

variable {rs : List (CaseRange T.bitWidth)}

theorem RangeOf.forall_disjoint_iff {a : CaseValue T} (ha : RangeOf a r)
    (h : Forall₂ RangeOf vs rs) :
    (∀ b ∈ vs, a.Disjoint b) ↔ ∀ s ∈ rs, (r.interval T).Disjoint (s.interval T) := by
  induction h with
  | nil => simp
  | cons hhd _ ih => simp only [forall_mem_cons, ih, ha.disjoint_iff hhd]

theorem pairwise_disjoint_ranges
    (h : Forall₂ RangeOf vs rs) :
    vs.Pairwise CaseValue.Disjoint ↔
      (rs.map (CaseRange.interval T)).Pairwise Interval.Disjoint := by
  induction h with
  | nil => simp
  | cons hhd htl ih =>
    simp only [map_cons, pairwise_cons, forall_mem_map, ih, hhd.forall_disjoint_iff htl]

theorem exists_contains_iff
    (h : Forall₂ RangeOf vs rs) (v : T.Value) :
    (∃ val ∈ vs, val.Contains v) ↔ ∃ r ∈ rs, (r.interval T).Contains (T.number v.1) := by
  induction h with
  | nil => simp
  | cons hhd _ ih => simp only [exists_mem_cons_iff, ih, hhd.contains_iff v]

theorem forall_valid
    (h : Forall₂ RangeOf vs rs) : ∀ r ∈ rs, ValidRange T r := by
  induction h with
  | nil => simp
  | cons hhd _ ih => exact forall_mem_cons.2 ⟨hhd.valid, ih⟩

theorem noGaps_iff_forall_contained (h : Forall₂ RangeOf vs rs) :
    NoGaps T rs ↔ ∀ v, ∃ val ∈ vs, val.Contains v := by
  simp only [exists_contains_iff h, NoGaps, Interval.Covers, mem_map, exists_exists_and_eq_and]
  constructor
  · intro hcov v
    exact hcov _ (value_bounds v).1 (value_bounds v).2
  · intro hall n hlow hhi
    obtain ⟨v, rfl⟩ := exists_number hlow hhi
    exact hall v

theorem noGaps_perm {rs sorted : List (CaseRange T.bitWidth)} (h : sorted.Perm rs) :
    NoGaps T sorted ↔ NoGaps T rs := by
  unfold NoGaps Interval.Covers
  simp only [mem_map, h.mem_iff]

theorem sorted_intervals {sorted : List (CaseRange T.bitWidth)}
    (h : sorted.Pairwise fun x y => lessByLow T y x = false) :
    (sorted.map (CaseRange.interval T)).Pairwise fun a b => a.1 ≤ b.1 := by
  rw [pairwise_map]
  refine h.imp ?_
  intro x y hless
  by_contra hlt
  exact Bool.eq_false_iff.1 hless (lt_iff.2 (not_le.1 hlt))

/-! ## The generated code -/

theorem rangeTest_iff (v : BitVec T.bitWidth) (r : CaseRange T.bitWidth) :
    rangeTest T v r ↔ (r.interval T).Contains (T.number v) := by
  unfold rangeTest
  by_cases heq : r.low = r.high
  · rw [if_pos heq, beq_iff_eq, ← number_inj]
    simp only [CaseRange.interval, ← heq]
    exact le_antisymm_iff.trans and_comm
  · rw [if_neg heq, Bool.and_eq_true, le_iff, le_iff]
    rfl

theorem caseTest_iff (v : BitVec T.bitWidth) (rs : List (CaseRange T.bitWidth)) :
    caseTest T v rs ↔ ∃ r ∈ rs, (r.interval T).Contains (T.number v) := by
  suffices h : ∀ s, rs.foldl (fun b r => b || rangeTest T v r) s = true ↔
      s = true ∨ ∃ r ∈ rs, (r.interval T).Contains (T.number v) by
    simpa [caseTest] using h false
  induction rs with
  | nil => simp
  | cons range rs ih =>
    intro s
    rw [foldl_cons, ih, Bool.or_eq_true, rangeTest_iff, exists_mem_cons_iff, or_assoc]

theorem mem_generateTests {i k : Nat} {cases : List (Case T)} :
    (i, rs) ∈ generateTests k cases (cases.map Case.ranges) ↔
      ∃ j c, i = k + j ∧ cases[j]? = some c ∧ c.isDefault = false ∧ rs = c.ranges := by
  induction cases generalizing k with
  | nil => simp [generateTests]
  | cons c cases ih =>
    have htl : (i, rs) ∈ generateTests (k + 1) cases (cases.map Case.ranges) ↔
        ∃ j other, i = k + (j + 1) ∧ (c :: cases)[j + 1]? = some other ∧
          other.isDefault = false ∧ rs = other.ranges := by
      rw [ih]
      simp only [getElem?_cons_succ, add_assoc, add_comm 1]
    simp only [map_cons, generateTests]
    cases hvs : c.values with
    | list first others =>
      simp only [mem_cons, htl, Prod.mk.injEq]
      constructor
      · rintro (⟨rfl, rfl⟩ | ⟨j, other, h⟩)
        · exact ⟨0, c, rfl, rfl, by simp [Case.isDefault, hvs], rfl⟩
        · exact ⟨j + 1, other, h⟩
      · rintro ⟨j, other, rfl, hget, hdf, rfl⟩
        cases j with
        | zero =>
          cases hget
          exact .inl ⟨rfl, rfl⟩
        | succ j => exact .inr ⟨j, other, rfl, hget, hdf, rfl⟩
    | defaultPlaceholder =>
      simp only [htl]
      constructor
      · rintro ⟨j, other, h⟩
        exact ⟨j + 1, other, h⟩
      · rintro ⟨j, other, rfl, hget, hdf, rfl⟩
        cases j with
        | zero =>
          cases hget
          simp [Case.isDefault, hvs] at hdf
        | succ j => exact ⟨j, other, rfl, hget, hdf, rfl⟩

variable {tests : List (Nat × List (CaseRange T.bitWidth))}

theorem runTests_case {v : BitVec T.bitWidth} {otherwise : Destination} {i : Nat}
    (hpas : ∃ test ∈ tests, caseTest T v test.2)
    (huq : ∀ test ∈ tests, caseTest T v test.2 → test.1 = i) :
    runTests T v otherwise tests = .case_ i := by
  induction tests with
  | nil => simp at hpas
  | cons test tests ih =>
    rw [forall_mem_cons] at huq
    by_cases htest : caseTest T v test.2
    · rw [runTests, if_pos htest, huq.1 htest]
    · rw [runTests, if_neg htest]
      obtain ⟨other, hmem, ho⟩ := hpas
      rcases mem_cons.1 hmem with rfl | hmem
      · exact absurd ho htest
      · exact ih ⟨other, hmem, ho⟩ huq.2

theorem runTests_otherwise {v : BitVec T.bitWidth} {otherwise : Destination}
    (hfl : ∀ test ∈ tests, ¬caseTest T v test.2) :
    runTests T v otherwise tests = otherwise := by
  induction tests with
  | nil => rfl
  | cons test tests ih =>
    rw [forall_mem_cons] at hfl
    rw [runTests, if_neg hfl.1, ih hfl.2]

/-! ## Exactness -/

def SwitchError.IsRangeError {w : Nat} : SwitchError w → Prop
  | typesMismatch _ | expectedConstantExpression _ | switchDuplicatedDefaultLabel _ => False
  | _ => True

def AddsRangeErrors {w : Nat} (checks checks' : RangeChecks w) : Prop :=
  (∀ error ∈ checks.errors, error.IsRangeError) → ∀ error ∈ checks'.errors, error.IsRangeError

variable {hasDefault : Bool}

theorem addsRangeErrors_gap {w : Nat} {checks : RangeChecks w}
    {gapSz : BitVec w} {forOne forMore : SwitchError w} (hone : forOne.IsRangeError)
    (hmo : forMore.IsRangeError) :
    AddsRangeErrors checks (checks.gap hasDefault gapSz forOne forMore) := by
  intro h err herr
  unfold RangeChecks.gap at herr
  split at herr
  · exact h err herr
  · rcases mem_append.1 herr with herr | herr
    · exact h err herr
    · cases hasDefault with
      | false =>
        obtain rfl := mem_singleton.1 herr
        split
        · exact hone
        · exact hmo
      | true => cases herr

theorem addsRangeErrors_checkAllNeighbours (rs : List (CaseRange T.bitWidth))
    (checks : RangeChecks T.bitWidth) :
    AddsRangeErrors checks (checkAllNeighbours T hasDefault rs checks) := by
  induction rs generalizing checks with
  | nil => exact fun h => h
  | cons cur rs ih =>
    cases rs with
    | nil => exact fun h => h
    | cons next rs =>
      intro h
      refine ih (checkNeighbours T hasDefault cur next checks) ?_
      unfold checkNeighbours
      split
      · exact addsRangeErrors_gap trivial trivial h
      · intro err herr
        rcases mem_append.1 herr with herr | herr
        · exact h err herr
        · obtain rfl := mem_singleton.1 herr
          trivial

theorem isRangeError_checkRanges {srcLoc : Nat} :
    ∀ err ∈ (checkRanges T srcLoc hasDefault rs).errors, err.IsRangeError := by
  have hnei : ∀ err ∈ (checkAllNeighbours T hasDefault rs {}).errors, err.IsRangeError :=
    addsRangeErrors_checkAllNeighbours rs {} (by simp)
  unfold checkRanges
  split
  · exact addsRangeErrors_gap trivial trivial (addsRangeErrors_gap trivial trivial hnei)
  · intro err herr
    rcases mem_append.1 herr with herr | herr
    · exact hnei err herr
    · split at herr
      · cases herr
      · split at herr <;> (obtain rfl := mem_singleton.1 herr; trivial)

structure Exact : Prop where
  nonempty : ∀ value ∈ caseValues cases, ∃ v, value.Contains v
  disjoint : (caseValues cases).Pairwise CaseValue.Disjoint
  covers_iff : (∀ v, ∃ value ∈ caseValues cases, value.Contains v) ↔
    ∀ case_ ∈ cases, case_.isDefault = false

section Exactness

variable {cases}

theorem default_cases (cases : List (Case T)) :
    ((evaluateCases cases).defaultBranch = none ∧ ∀ c ∈ cases, c.isDefault = false) ∨
      ∃ i c, (evaluateCases cases).defaultBranch = some i ∧ cases[i]? = some c ∧
        c.isDefault = true := by
  rw [defaultBranch_evaluateCases]
  cases h : cases.findIdx? Case.isDefault with
  | none => exact .inl ⟨rfl, findIdx?_eq_none_iff.1 h⟩
  | some i =>
    obtain ⟨hi, hdf, _⟩ := findIdx?_eq_some_iff_getElem.1 h
    exact .inr ⟨i, cases[i], rfl, getElem?_eq_getElem hi, hdf⟩

variable (S : StdSort (lessByLow T)) (switchSrcLoc : Nat)

/-- The errors of a switch with constant case values of which none is empty. -/
theorem buildSwitch_errors
    (hc : ∀ val ∈ caseValues cases, val.isConstant)
    (hnonempty : ∀ val ∈ caseValues cases, ∃ v, val.Contains v)
    (hok : (evaluateCases cases).errors = []) :
    (∀ err ∈ (buildSwitch S switchSrcLoc cases).1, err.IsRangeError) ∧
      ((buildSwitch S switchSrcLoc cases).1 = [] ↔ Exact cases) := by
  have hran := forall₂_allRanges hc hnonempty
  have hval := forall_valid hran
  have hall : (evaluateCases cases).branchesRanges.flatten = (cases.map Case.ranges).flatten := by
    rw [branchesRanges_evaluateCases]
  have hpm := S.perm (cases.map Case.ranges).flatten
  have hsrt := sorted_intervals (S.sorted (cases.map Case.ranges).flatten)
  have hok' : ∀ r ∈ S.sort (cases.map Case.ranges).flatten, ValidRange T r :=
    fun r hr => hval r (hpm.mem_iff.1 hr)
  have hne : ∀ a ∈ (S.sort (cases.map Case.ranges).flatten).map (CaseRange.interval T),
      a.Nonempty := forall_mem_map.2 fun r hr => (hok' r hr).nonempty
  have hdj : (caseValues cases).Pairwise CaseValue.Disjoint ↔
      ((S.sort (cases.map Case.ranges).flatten).map (CaseRange.interval T)).IsChain
        Interval.Before := by
    rw [pairwise_disjoint_ranges hran, ← Interval.pairwise_disjoint_iff hne hsrt]
    exact ((hpm.map _).pairwise_iff Interval.Disjoint.symm).symm
  have hcov := noGaps_iff_forall_contained hran
  rw [← noGaps_perm hpm] at hcov
  have hchks := fun hasDefault => @checkRanges_iff target T hasDefault _ switchSrcLoc hok'
  simp only [buildSwitch, hok, isEmpty_nil, if_true, hall]
  rcases default_cases cases with ⟨hbra, hno⟩ | ⟨i, c, hbra, hget, hdf⟩
  · simp only [hbra, Option.isSome_none, Option.bind_none, append_nil]
    refine ⟨isRangeError_checkRanges, ?_⟩
    rw [(hchks false).1, ← hdj, hcov]
    constructor
    · rintro ⟨h, hcove⟩
      exact ⟨hnonempty, h, iff_of_true (hcove rfl) hno⟩
    · intro h
      exact ⟨h.disjoint, fun _ => h.covers_iff.2 hno⟩
  · have hsm : ¬∀ c ∈ cases, c.isDefault = false := fun h => by
      rw [h c (mem_of_getElem? hget)] at hdf
      cases hdf
    simp only [hbra, Option.isSome_some, Option.bind_some, hget]
    constructor
    · intro err herr
      rcases mem_append.1 herr with herr | herr
      · exact isRangeError_checkRanges err herr
      · split at herr
        · cases herr
        · obtain rfl := mem_singleton.1 herr
          trivial
    · rw [append_eq_nil_iff, (hchks true).1, ← hdj]
      constructor
      · rintro ⟨⟨h, _⟩, hunr⟩
        refine ⟨hnonempty, h, iff_of_false ?_ hsm⟩
        intro hcove
        have hgaps := ((hchks true).2 (hdj.1 h)).2 (hcov.2 hcove)
        rw [hgaps] at hunr
        simp at hunr
      · intro h
        refine ⟨⟨h.disjoint, fun hfa => by cases hfa⟩, ?_⟩
        rw [if_pos]
        by_contra hgaps
        rw [Bool.not_eq_true] at hgaps
        exact hsm (h.covers_iff.1 (hcov.1 (((hchks true).2 (hdj.1 h.disjoint)).1 hgaps)))

theorem caseTest_ranges {c : Case T} (hc : ∀ val ∈ c.values.toList, val.isConstant)
    (hne : ∀ val ∈ c.values.toList, ∃ v, val.Contains v) (v : T.Value) :
    caseTest T v.1 c.ranges ↔ ∃ val ∈ c.values.toList, val.Contains v := by
  rw [caseTest_iff, exists_contains_iff (forall₂_ranges hc hne) v]
  rfl

theorem Exact.case_unique (h : Exact cases) {i j : Nat} {a b : Case T} {x y : CaseValue T}
    {v : T.Value} (ha : cases[i]? = some a) (hb : cases[j]? = some b)
    (hx : x ∈ a.values.toList) (hy : y ∈ b.values.toList) (hxv : x.Contains v)
    (hyv : y.Contains v) : i = j := by
  have hprs := (pairwise_flatMap.1 h.disjoint).2
  rw [pairwise_iff_getElem] at hprs
  obtain ⟨hi, rfl⟩ := List.getElem?_eq_some_iff.1 ha
  obtain ⟨hj, rfl⟩ := List.getElem?_eq_some_iff.1 hb
  rcases lt_trichotomy i j with hlt | heq | hlt
  · exact absurd ⟨hxv, hyv⟩ (hprs i j hi hj hlt x hx y hy v)
  · exact heq
  · exact absurd ⟨hyv, hxv⟩ (hprs j i hj hi hlt y hy x hx v)

theorem values_of_isDefault {c : Case T} (h : c.isDefault = true) : c.values.toList = [] := by
  unfold Case.isDefault at h
  split at h
  · cases h
  · rename_i hvs
    rw [hvs]
    rfl

/-- The destination of a value by the claim: the case that has it, or the default one. -/
def GoesTo (cases : List (Case T)) (v : T.Value) (destination : Destination) : Prop :=
  (∀ i case_, cases[i]? = some case_ → (∃ value ∈ case_.values.toList, value.Contains v) →
      destination = .case_ i) ∧
    ((∀ value ∈ caseValues cases, ¬value.Contains v) →
      ∃ i case_, cases[i]? = some case_ ∧ case_.isDefault = true ∧ destination = .case_ i)

theorem buildSwitch_run
    (hc : ∀ val ∈ caseValues cases, val.isConstant) (hexact : Exact cases)
    (hok : (evaluateCases cases).errors = []) :
    ∃ chain, (buildSwitch S switchSrcLoc cases).2 = some chain ∧
      ∀ v, GoesTo cases v (chain.run v.1) := by
  have htest : ∀ c ∈ cases, ∀ v,
      caseTest T v.1 c.ranges ↔ ∃ val ∈ c.values.toList, val.Contains v := by
    intro c hcase v
    exact caseTest_ranges (fun val hv => hc val (mem_caseValues.2 ⟨c, hcase, hv⟩))
      (fun val hv => hexact.nonempty val (mem_caseValues.2 ⟨c, hcase, hv⟩)) v
  refine ⟨_, by simp only [buildSwitch, hok]; rfl, ?_⟩
  intro v
  rw [ComparisonChain.run, branchesRanges_evaluateCases]
  constructor
  · rintro i c hget ⟨val, hv, hcon⟩
    have hnotDf : c.isDefault = false := by
      by_contra hdf
      rw [values_of_isDefault (by simpa using hdf)] at hv
      cases hv
    refine runTests_case ⟨(i, c.ranges), ?_, ?_⟩ ?_
    · exact mem_generateTests.2 ⟨i, c, by simp, hget, hnotDf, rfl⟩
    · exact (htest c (mem_of_getElem? hget) v).2 ⟨val, hv, hcon⟩
    · rintro ⟨j, rs⟩ hmem hpas
      obtain ⟨k, other, rfl, ho, -, rfl⟩ := mem_generateTests.1 hmem
      obtain ⟨value', hv', hcon'⟩ := (htest other (mem_of_getElem? ho) v).1 hpas
      rw [zero_add]
      exact hexact.case_unique ho hget hv' hv hcon' hcon
  · intro hno
    rw [runTests_otherwise]
    · rcases default_cases cases with ⟨_, hnoDf⟩ | ⟨i, c, hbra, hget, hdf⟩
      · obtain ⟨val, hv, hcon⟩ := hexact.covers_iff.2 hnoDf v
        exact absurd hcon (hno val hv)
      · exact ⟨i, c, hget, hdf, by rw [hbra]⟩
    · rintro ⟨j, rs⟩ hmem hpas
      obtain ⟨k, other, rfl, ho, -, rfl⟩ := mem_generateTests.1 hmem
      have hcase := mem_of_getElem? ho
      obtain ⟨val, hv, hcon⟩ := (htest other hcase v).1 hpas
      exact hno val (mem_caseValues.2 ⟨other, hcase, hv⟩) hcon

/-- A switch has no range error exactly if its case values are not empty, have no common
values, and are all values exactly if there is no default branch.  The code of an accepted
switch transfers every value to the branch that has it, or to the default branch. -/
theorem switch_checking_exact
    (hconstant : ∀ value ∈ caseValues cases, value.isConstant)
    (hdefault : cases.countP Case.isDefault ≤ 1) :
    ((∀ error ∈ (buildSwitch S switchSrcLoc cases).1, ¬error.IsRangeError) ↔ Exact cases) ∧
      ((buildSwitch S switchSrcLoc cases).1 = [] →
        ∃ chain, (buildSwitch S switchSrcLoc cases).2 = some chain ∧
          ∀ v, GoesTo cases v (chain.run v.1)) := by
  obtain ⟨hkind, hnil⟩ := mem_errors_evaluateCases hconstant hdefault
  by_cases hnonempty : ∀ value ∈ caseValues cases, ∃ v, value.Contains v
  · have hok := hnil.2 hnonempty
    obtain ⟨hrange, hexact⟩ := buildSwitch_errors S switchSrcLoc hconstant hnonempty hok
    constructor
    · rw [← hexact]
      constructor
      · intro h
        exact eq_nil_iff_forall_not_mem.2 fun error herror =>
          h error herror (hrange error herror)
      · intro h
        simp [h]
    · intro h
      exact buildSwitch_run S switchSrcLoc hconstant (hexact.1 h) hok
  · -- The evaluation of the cases stops the build.
    have herrors : (evaluateCases cases).errors ≠ [] := fun h => hnonempty (hnil.1 h)
    have hbuild : (buildSwitch S switchSrcLoc cases).1 = (evaluateCases cases).errors := by
      simp [buildSwitch, herrors]
    rw [hbuild]
    refine ⟨iff_of_false ?_ fun h => hnonempty h.nonempty, fun h => absurd h herrors⟩
    intro h
    obtain ⟨error, herror⟩ := exists_mem_of_ne_nil _ herrors
    obtain ⟨srcLoc, low, high, rfl⟩ := hkind error herror
    exact h _ herror trivial

end Exactness

/-- A sorting algorithm that keeps the order of ranges with the same lower end. -/
def stableSort (T : SwitchType target) : StdSort (lessByLow T) where
  sort := insertionSort fun x y => lessByLow T y x = false
  perm l := perm_insertionSort _ l
  sorted l := by
    have hle : ∀ x y : CaseRange T.bitWidth,
        lessByLow T y x = false ↔ T.number x.low ≤ T.number y.low := by
      intro x y
      rw [lessByLow, ← Bool.not_eq_true, lt_iff, not_lt]
    have : Std.Total fun x y => lessByLow T y x = false :=
      ⟨fun x y => by rw [hle, hle]; exact le_total _ _⟩
    have : IsTrans (CaseRange T.bitWidth) fun x y => lessByLow T y x = false :=
      ⟨fun x y z => by rw [hle, hle, hle]; exact le_trans⟩
    exact pairwise_insertionSort _ l

def threeMembers : EnumType .bits64 := ⟨.u8_, 3, rfl, by decide, fun _ => by decide, by decide⟩

/-- The first and the last member of an enum in one branch, the second one in another. -/
def branches : List (Case (enum threeMembers)) :=
  [⟨.list (.single (.constant 1 ⟨0, show 0 < 3 by decide⟩))
      [.single (.constant 2 ⟨2, show 2 < 3 by decide⟩)], 3⟩,
    ⟨.list (.single (.constant 4 ⟨1, show 1 < 3 by decide⟩)) [], 5⟩]

theorem switch_checking_exact_enum : Exact branches ∧
    ∃ chain, (buildSwitch (stableSort _) 0 branches).2 = some chain ∧
      ∀ v, GoesTo branches v (chain.run v.1) := by
  have hnone : (buildSwitch (stableSort _) 0 branches).1 = [] := by decide
  have hexact := @switch_checking_exact _ _ branches (stableSort _) 0 (by decide) (by decide)
  exact ⟨hexact.1.1 (by simp [hnone]), hexact.2 hnone⟩

end USprache.CodeBuilder.Switch
