import USprache.CodeBuilder.SpecializationOrder

/-!
# Results of the comparison of template signatures

The comparison tells for both sides whether they are at least as special, but a parameter on the
left that stands against a coroutine on the right is an impossible pair to it.
-/

namespace USprache.CodeBuilder.WithArgs

open ConversionsCompareResult Bool Nat

def uncheckedResult (result : Option ConversionsCompareResult) : ConversionsCompareResult :=
  result.getD incomparable

@[simp]
theorem uncheckedResult_some (r : ConversionsCompareResult) : uncheckedResult (some r) = r := rfl

def resultOf : Bool → Bool → ConversionsCompareResult
  | true, true => same
  | true, false => leftIsBetter
  | false, true => rightIsBetter
  | false, false => incomparable

variable (a b : Bool)

@[simp]
theorem leftHolds_resultOf : (resultOf a b).leftHolds = a := by
  cases a <;> cases b <;> rfl

@[simp]
theorem rightHolds_resultOf : (resultOf a b).rightHolds = b := by
  cases a <;> cases b <;> rfl

theorem resultOf_true_eq_same : resultOf true b = same ↔ b = true := by
  cases b <;> decide

theorem resultOf_eq_same_of_true : resultOf a true = same ↔ a = true := by
  cases a <;> decide

theorem combine_resultOf (c d : Bool) :
    combine (resultOf a b) (resultOf c d) = resultOf (a && c) (b && d) := by
  cases a <;> cases b <;> cases c <;> cases d <;> rfl

variable {compared : Option ConversionsCompareResult}

theorem uncheckedResult_bind
    {r : ConversionsCompareResult → Option ConversionsCompareResult} {a b c d : Bool}
    (hcmp : uncheckedResult compared = resultOf a b)
    (hrs : uncheckedResult (r (resultOf a b)) = resultOf (a && c) (b && d)) :
    uncheckedResult (compared.bind r) = resultOf (a && c) (b && d) := by
  cases compared with
  | none =>
    rw [← combine_resultOf, ← hcmp]
    rfl
  | some result =>
    rw [← hrs, ← hcmp]
    rfl

theorem uncheckedResult_next
    {rs : ConversionsCompareResult → Option ConversionsCompareResult} {a b c d e f : Bool}
    (hcmp : uncheckedResult compared = resultOf c d)
    (hrs : ∀ a b, uncheckedResult (rs (resultOf a b)) = resultOf (a && e) (b && f)) :
    uncheckedResult (compared.bind fun aR =>
        match (resultOf a b).next aR with
        | none => some incomparable
        | some r => rs r) = resultOf (a && (c && e)) (b && (d && f)) := by
  rw [← Bool.and_assoc, ← Bool.and_assoc]
  cases compared with
  | none =>
    rw [← combine_resultOf, ← combine_resultOf, ← hcmp]
    cases a <;> cases b <;> rfl
  | some aR =>
    rw [uncheckedResult_some] at hcmp
    rw [Option.bind_some]
    cases hnx : (resultOf a b).next aR with
    | none =>
      rw [← combine_resultOf, ← combine_resultOf, ← hcmp, combine_of_next_none hnx]
      rfl
    | some r =>
      rw [combine_of_next hnx, hcmp, combine_resultOf]
      exact hrs _ _

variable {ofCoroutines : Bool}

theorem specializesAll_length : ∀ {ls rs : List SignatureParam},
    specializesAll ofCoroutines ls rs = true → ls.length = rs.length
  | [], [], _ => rfl
  | [], _ :: _, h | _ :: _, [], h => by simp [specializesAll] at h
  | _ :: _, _ :: _, h => by
    rw [specializesAll, and_eq_true] at h
    exact congrArg succ (specializesAll_length h.2)

theorem specializesFunctionParams_length : ∀ {ls rs : List FunctionSignatureParam},
    specializesFunctionParams ofCoroutines ls rs = true → ls.length = rs.length
  | [], [], _ => rfl
  | [], _ :: _, h | .mk _ _ :: _, [], h => by simp [specializesFunctionParams] at h
  | .mk _ _ :: _, .mk _ _ :: _, h => by
    rw [specializesFunctionParams, and_eq_true] at h
    exact congrArg succ (specializesFunctionParams_length h.2)

theorem not_specializesAll {ls rs : List SignatureParam}
    (h : ls.length ≠ rs.length) : specializesAll ofCoroutines ls rs = false :=
  eq_false_iff.2 fun hall => h (specializesAll_length hall)

theorem not_specializesFunctionParams
    {ls rs : List FunctionSignatureParam} (h : ls.length ≠ rs.length) :
    specializesFunctionParams ofCoroutines ls rs = false :=
  eq_false_iff.2 fun hall => h (specializesFunctionParams_length hall)

mutual

/-- The comparison tells for both sides whether they are at least as special, but does not find
the coroutines that are more special than a parameter on the left. -/
theorem compare_eq : ∀ left right, uncheckedResult (templateSpecializationCompare left right) =
    resultOf (specializes true left right) (specializes false right left)
  | .type _, right | .variable_ .., right | .typeTemplate _, right | .templateParam .., right => by
    cases right <;> rfl
  | .array leftCount leftType, right => by
    cases right
    case array rightCount rightType =>
      have hc := compare_eq leftCount rightCount
      have hty := compare_eq leftType rightType
      rw [templateSpecializationCompare, specializes, specializes, ← combine_resultOf, ← hc, ← hty]
      cases templateSpecializationCompare leftCount rightCount with
      | none => rfl
      | some szR =>
        cases templateSpecializationCompare leftType rightType with
        | none => cases szR <;> rfl
        | some typeResult => rfl
    all_goals rfl
  | .tuple leftTypes, right => by
    cases right
    case tuple rightTypes =>
      rw [templateSpecializationCompare, specializes, specializes]
      by_cases hlen : leftTypes.length = rightTypes.length
      · rw [if_neg (not_not.2 hlen)]
        exact compareParams_eq true true leftTypes rightTypes hlen
      · rw [if_pos hlen, not_specializesAll hlen, not_specializesAll (Ne.symm hlen)]
        rfl
    all_goals rfl
  | .rawPointer leftType, right => by
    cases right
    case rawPointer rightType => exact compare_eq leftType rightType
    all_goals rfl
  | .function leftReturnType _ _ _ leftParams, right => by
    cases right
    case function rightReturnType _ _ _ rightParams =>
      rw [templateSpecializationCompare, specializes, specializes]
      by_cases hlen : leftParams.length = rightParams.length
      · rw [if_neg (not_not.2 hlen)]
        exact uncheckedResult_bind (compare_eq leftReturnType rightReturnType)
          (compareFunctionParams_eq _ _ leftParams rightParams hlen)
      · rw [if_pos hlen, not_specializesFunctionParams hlen,
          not_specializesFunctionParams (Ne.symm hlen), Bool.and_false, Bool.and_false]
        rfl
    all_goals rfl
  | .coroutine kind leftReturnType returnValueType returnReferences returnInnerReferences
      innerReferences _, right => by
    cases right
    case coroutine rightKind rightReturnType rightReturnValueType rightReturnReferences
        rightReturnInnerReferences rightInnerReferences _ =>
      simp only [templateSpecializationCompare, specializes, ne_eq, ← not_and_or, eq_comm]
      split_ifs with heq
      · rw [decide_eq_true heq, Bool.true_and, Bool.true_and]
        exact (compare_eq leftReturnType rightReturnType).symm
      · rw [decide_eq_false heq]
        rfl
    all_goals rfl
  | .specializedTemplate leftTemplates leftParams, right => by
    cases right
    case specializedTemplate rightTemplates rightParams =>
      rw [templateSpecializationCompare, specializes, specializes]
      refine uncheckedResult_bind (compareTypeTemplates_eq leftTemplates rightTemplates) ?_
      split_ifs with hinc hlen
      · rw [← combine_resultOf, hinc]
        rfl
      · rw [not_specializesAll hlen, not_specializesAll (Ne.symm hlen), Bool.and_false,
          Bool.and_false]
        rfl
      · exact compareParams_eq _ _ leftParams rightParams (not_not.1 hlen)
    all_goals rfl

theorem compareTypeTemplates_eq : ∀ ls rs, uncheckedResult (compareTypeTemplates ls rs) =
    resultOf (specializesTemplates true ls rs) (specializesTemplates false rs ls)
  | [], rs => by
    cases rs with
    | nil => rfl
    | cons right rs =>
      cases rs <;> rfl
  | [left], rs => by
    match rs with
    | [] => rfl
    | [right] => exact compare_eq left right
    | right :: another :: rs =>
      have hlens : ¬ right :: another :: rs = [left] := by simp
      simp only [compareTypeTemplates, specializesTemplates, decide_eq_false hlens]
      rfl
  | left :: other :: ls, rs => by
    match rs with
    | [] => rfl
    | [right] =>
      have hlens : ¬ left :: other :: ls = [right] := by simp
      simp only [compareTypeTemplates, specializesTemplates, if_neg hlens,
        decide_eq_false hlens]
      rfl
    | right :: another :: rs =>
      simp only [compareTypeTemplates, specializesTemplates, eq_comm]
      by_cases heq : left :: other :: ls = right :: another :: rs
      · rw [if_pos heq, decide_eq_true heq]
        rfl
      · rw [if_neg heq, decide_eq_false heq]
        rfl

theorem compareParams_eq (a b : Bool) : ∀ ls rs,
    ls.length = rs.length → uncheckedResult (compareParams (resultOf a b) ls rs) =
        resultOf (a && specializesAll true ls rs) (b && specializesAll false rs ls)
  | [], [], _ => by
    rw [compareParams, specializesAll, specializesAll, Bool.and_true, Bool.and_true]
    all_goals simp
  | left :: ls, right :: rs, hlen => by
    rw [compareParams, specializesAll, specializesAll]
    exact uncheckedResult_next (compare_eq left right) fun a b =>
      compareParams_eq a b ls rs (succ.inj hlen)

theorem compareFunctionParams_eq (a b : Bool) : ∀ ls rs, ls.length = rs.length →
    uncheckedResult (compareFunctionParams (resultOf a b) ls rs) =
      resultOf (a && specializesFunctionParams true ls rs)
        (b && specializesFunctionParams false rs ls)
  | [], [], _ => by
    rw [compareFunctionParams, specializesFunctionParams, specializesFunctionParams, Bool.and_true,
      Bool.and_true]
    all_goals simp
  | .mk left _ :: ls, .mk right _ :: rs, hlen => by
    rw [compareFunctionParams, specializesFunctionParams, specializesFunctionParams]
    exact uncheckedResult_next (compare_eq left right) fun a b =>
      compareFunctionParams_eq a b ls rs (succ.inj hlen)

end

def uncheckedCompare (left right : SignatureParam) : ConversionsCompareResult :=
  uncheckedResult (templateSpecializationCompare left right)

variable {left right : SignatureParam}

theorem leftHolds_compare (left right : SignatureParam) :
    (uncheckedCompare left right).leftHolds = specializes true left right := by
  rw [uncheckedCompare, compare_eq, leftHolds_resultOf]

theorem compare_eq_of_specializes (h : specializes true left right = true) :
    uncheckedCompare left right = resultOf true (specializes true right left) := by
  have hag := not_paramAgainstCoroutine left right h
  rw [uncheckedCompare, compare_eq, h, specializes_found hag]

theorem compare_eq_of_not_against
    (h : paramAgainstCoroutine left right = false) : uncheckedCompare left right =
      resultOf (specializes true left right) (specializes true right left) := by
  rw [uncheckedCompare, compare_eq, specializes_found h]

theorem compare_eq_leftIsBetter_iff : uncheckedCompare left right = leftIsBetter ↔
    specializes true left right = true ∧ specializes true right left = false := by
  constructor
  · intro heq
    have hl := leftHolds_compare left right
    rw [heq] at hl
    have hr := compare_eq_of_specializes hl.symm
    rw [heq] at hr
    refine ⟨hl.symm, ?_⟩
    have hh := congrArg rightHolds hr
    rw [rightHolds_resultOf] at hh
    exact hh.symm
  · intro h
    rw [compare_eq_of_specializes h.1, h.2]
    rfl

theorem compare_eq_of_rightHolds (h : (uncheckedCompare left right).rightHolds = true) :
    specializes true right left = true ∧
      uncheckedCompare left right = resultOf (specializes true left right) true := by
  rw [uncheckedCompare, compare_eq, rightHolds_resultOf] at h
  have hright := h
  rw [specializes_false, and_eq_true_iff] at hright
  refine ⟨hright.1, ?_⟩
  rw [uncheckedCompare, compare_eq, h]

theorem leftHolds_trans {middle : SignatureParam}
    (hl : (uncheckedCompare left middle).leftHolds = true)
    (hr : (uncheckedCompare middle right).leftHolds = true) :
    (uncheckedCompare left right).leftHolds = true ∧ (uncheckedCompare left right = same ↔
      uncheckedCompare left middle = same ∧ uncheckedCompare middle right = same) := by
  rw [leftHolds_compare] at hl hr ⊢
  have hlr := specializes_trans left middle right hl hr
  refine ⟨hlr, ?_⟩
  rw [compare_eq_of_specializes hl, compare_eq_of_specializes hr, compare_eq_of_specializes hlr]
  simp only [resultOf_true_eq_same]
  exact ⟨fun hrl => ⟨specializes_trans middle right left hr hrl, specializes_trans right left middle hrl hl⟩,
    fun h => specializes_trans right middle left h.2 h.1⟩

theorem rightHolds_trans {middle : SignatureParam} (hagainst : paramAgainstCoroutine left right = false)
    (hl : (uncheckedCompare left middle).rightHolds = true)
    (hr : (uncheckedCompare middle right).rightHolds = true) :
    (uncheckedCompare left right).rightHolds = true ∧ (uncheckedCompare left right = same ↔
      uncheckedCompare left middle = same ∧ uncheckedCompare middle right = same) := by
  obtain ⟨hml, hleft⟩ := compare_eq_of_rightHolds hl
  obtain ⟨hrm, hright⟩ := compare_eq_of_rightHolds hr
  have hrl := specializes_trans right middle left hrm hml
  rw [compare_eq_of_not_against hagainst, hleft, hright, hrl, rightHolds_resultOf]
  refine ⟨rfl, ?_⟩
  simp only [resultOf_eq_same_of_true]
  exact ⟨fun h => ⟨specializes_trans left right middle h hrm, specializes_trans middle left right hml h⟩,
    fun h => specializes_trans left middle right h.1 h.2⟩

theorem mirror_resultOf : (resultOf a b).mirror = resultOf b a := by
  cases a <;> cases b <;> rfl

theorem uncheckedCompare_mirror (hag : paramAgainstCoroutine left right = false)
    (hag' : paramAgainstCoroutine right left = false) :
    uncheckedCompare right left = (uncheckedCompare left right).mirror := by
  rw [compare_eq_of_not_against hag, compare_eq_of_not_against hag', mirror_resultOf]

end USprache.CodeBuilder.WithArgs
