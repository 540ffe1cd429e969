import USprache.CodeBuilder.SignatureParams

/-!
# Comparison of template signatures

Where several templates match, the parameters of their signatures are compared, place by place: a
type is more special than a type built of parameters, which is more special than a parameter.
-/

namespace USprache.CodeBuilder.WithArgs

inductive ConversionsCompareResult where
  | same
  | leftIsBetter
  | rightIsBetter
  | incomparable
deriving DecidableEq

namespace ConversionsCompareResult

def leftHolds : ConversionsCompareResult → Bool
  | same | leftIsBetter => true
  | rightIsBetter | incomparable => false

def rightHolds : ConversionsCompareResult → Bool
  | same | rightIsBetter => true
  | leftIsBetter | incomparable => false

def mirror : ConversionsCompareResult → ConversionsCompareResult
  | same => same
  | leftIsBetter => rightIsBetter
  | rightIsBetter => leftIsBetter
  | incomparable => incomparable

def combine (sizeCompareResult typeCompareResult : ConversionsCompareResult) :
    ConversionsCompareResult :=
  if sizeCompareResult = incomparable ∨ typeCompareResult = incomparable then incomparable
  else if sizeCompareResult = same then typeCompareResult
  else if typeCompareResult = same then sizeCompareResult
  else if typeCompareResult = sizeCompareResult then sizeCompareResult
  else incomparable

/-- What a loop over arguments makes of its result so far and the result for an argument; a
loop ends with `none`. -/
def next (result argResult : ConversionsCompareResult) : Option ConversionsCompareResult :=
  if argResult = incomparable then none
  else if argResult = same then some result
  else if result = same then some argResult
  else if result ≠ argResult then none
  else some result

theorem combine_of_next {a b c : ConversionsCompareResult} (h : a.next b = some c) :
    c = combine a b := by
  revert h
  cases a <;> cases b <;> simp [next] <;> exact fun h => h.symm

theorem combine_of_next_none {a b : ConversionsCompareResult} (h : a.next b = none) :
    combine a b = incomparable := by
  revert h
  cases a <;> cases b <;> simp [next, combine]

end ConversionsCompareResult

open ConversionsCompareResult

mutual

/-- `TemplateSpecializationCompare`.  It is `none` where an impossible pair is asserted not to
be there; without the assertion the result is `Incomparable`. -/
def templateSpecializationCompare :
    SignatureParam → SignatureParam → Option ConversionsCompareResult
  | .type _, right =>
    match right with
    | .type _ => some same
    | .templateParam .. | .array .. | .tuple _ | .rawPointer _ | .function .. | .coroutine ..
    | .specializedTemplate .. => some leftIsBetter
    | .variable_ .. | .typeTemplate _ => none
  | .variable_ .., right =>
    match right with
    | .variable_ .. => some same
    | .templateParam .. => some leftIsBetter
    | _ => none
  | .typeTemplate _, right =>
    match right with
    | .typeTemplate _ => some same
    | .templateParam .. => some leftIsBetter
    | _ => none
  | .array leftCount leftType, right =>
    match right with
    | .type _ => some rightIsBetter
    | .templateParam .. => some leftIsBetter
    | .array rightCount rightType => do
      let sizeCompareResult ← templateSpecializationCompare leftCount rightCount
      let typeCompareResult ← templateSpecializationCompare leftType rightType
      return combine sizeCompareResult typeCompareResult
    | _ => none
  | .tuple leftTypes, right =>
    match right with
    | .type _ => some rightIsBetter
    | .templateParam .. => some leftIsBetter
    | .tuple rightTypes =>
      if leftTypes.length ≠ rightTypes.length then some incomparable
      else compareParams same leftTypes rightTypes
    | _ => none
  | .rawPointer leftType, right =>
    match right with
    | .type _ => some rightIsBetter
    | .templateParam .. => some leftIsBetter
    | .rawPointer rightType => templateSpecializationCompare leftType rightType
    | _ => none
  | .function leftReturnType _ _ _ leftParams, right =>
    match right with
    | .type _ => some rightIsBetter
    | .templateParam .. => some leftIsBetter
    | .function rightReturnType _ _ _ rightParams =>
      if leftParams.length ≠ rightParams.length then some incomparable
      else do
        let result ← templateSpecializationCompare leftReturnType rightReturnType
        compareFunctionParams result leftParams rightParams
    | _ => none
  | .coroutine kind leftReturnType returnValueType returnReferences returnInnerReferences
      innerReferences _, right =>
    match right with
    | .type _ => some rightIsBetter
    | .templateParam .. => some leftIsBetter
    -- `non_sync` is not compared.
    | .coroutine rightKind rightReturnType rightReturnValueType rightReturnReferences
        rightReturnInnerReferences rightInnerReferences _ =>
      if kind ≠ rightKind ∨ returnValueType ≠ rightReturnValueType ∨
        returnReferences ≠ rightReturnReferences ∨
        returnInnerReferences ≠ rightReturnInnerReferences ∨
        innerReferences ≠ rightInnerReferences then some incomparable
      else templateSpecializationCompare leftReturnType rightReturnType
    | _ => none
  | .specializedTemplate leftTemplates leftParams, right =>
    match right with
    | .type _ => some rightIsBetter
    | .templateParam .. => some leftIsBetter
    | .specializedTemplate rightTemplates rightParams => do
      let result ← compareTypeTemplates leftTemplates rightTemplates
      if result = incomparable then some incomparable
      else if leftParams.length ≠ rightParams.length then some incomparable
      else compareParams result leftParams rightParams
    | _ => none
  | .templateParam .., right =>
    match right with
    | .type _ | .variable_ .. | .typeTemplate _ => some rightIsBetter
    | .templateParam .. => some same
    | .array .. | .tuple _ | .rawPointer _ | .function .. | .specializedTemplate .. =>
      some rightIsBetter
    -- There is no branch for coroutines.
    | .coroutine .. => none
termination_by structural left => left

/-- The comparison of the type templates of two specialized templates: only single ones are
compared. -/
def compareTypeTemplates :
    List SignatureParam → List SignatureParam → Option ConversionsCompareResult
  | [left], rights =>
    match rights with
    | [right] => templateSpecializationCompare left right
    | _ => some incomparable
  | lefts, rights => if lefts = rights then some same else some incomparable
termination_by structural lefts => lefts

/-- The loop over elements or arguments, of which there are as many on both sides. -/
def compareParams (result : ConversionsCompareResult) :
    List SignatureParam → List SignatureParam → Option ConversionsCompareResult
  | left :: lefts, right :: rights => do
    let argResult ← templateSpecializationCompare left right
    match result.next argResult with
    | none => some incomparable
    | some result => compareParams result lefts rights
  | _, _ => some result
termination_by structural lefts => lefts

def compareFunctionParams (result : ConversionsCompareResult) :
    List FunctionSignatureParam → List FunctionSignatureParam → Option ConversionsCompareResult
  | .mk left _ :: lefts, .mk right _ :: rights => do
    let argResult ← templateSpecializationCompare left right
    match result.next argResult with
    | none => some incomparable
    | some result => compareFunctionParams result lefts rights
  | _, _ => some result
termination_by structural lefts => lefts

end

end USprache.CodeBuilder.WithArgs

/-!
## The order of template signatures

The order that the comparison of template signatures goes by: place by place, one is at least as
special as the other.
-/

namespace USprache.CodeBuilder.WithArgs

open Bool

/-! ## Being at least as special -/

section

variable (ofCoroutines : Bool)

mutual

/-- At every place the left one is at least as special.  Whether a coroutine is at least as
special as a template parameter is left open. -/
def specializes : SignatureParam → SignatureParam → Bool
  | .type _, right =>
    match right with
    | .variable_ .. | .typeTemplate _ => false
    | _ => true
  | .variable_ .., right =>
    match right with
    | .variable_ .. | .templateParam .. => true
    | _ => false
  | .typeTemplate _, right =>
    match right with
    | .typeTemplate _ | .templateParam .. => true
    | _ => false
  | .array leftCount leftType, right =>
    match right with
    | .templateParam .. => true
    | .array rightCount rightType =>
      specializes leftCount rightCount && specializes leftType rightType
    | _ => false
  | .tuple leftTypes, right =>
    match right with
    | .templateParam .. => true
    | .tuple rightTypes => specializesAll leftTypes rightTypes
    | _ => false
  | .rawPointer leftType, right =>
    match right with
    | .templateParam .. => true
    | .rawPointer rightType => specializes leftType rightType
    | _ => false
  | .function leftReturnType _ _ _ leftParams, right =>
    match right with
    | .templateParam .. => true
    | .function rightReturnType _ _ _ rightParams =>
      specializes leftReturnType rightReturnType && specializesFunctionParams leftParams rightParams
    | _ => false
  | .coroutine kind leftReturnType returnValueType returnReferences returnInnerReferences
      innerReferences _, right =>
    match right with
    | .templateParam .. => ofCoroutines
    | .coroutine rightKind rightReturnType rightReturnValueType rightReturnReferences
        rightReturnInnerReferences rightInnerReferences _ =>
      decide (kind = rightKind ∧ returnValueType = rightReturnValueType ∧
        returnReferences = rightReturnReferences ∧
        returnInnerReferences = rightReturnInnerReferences ∧
        innerReferences = rightInnerReferences) && specializes leftReturnType rightReturnType
    | _ => false
  | .specializedTemplate leftTemplates leftParams, right =>
    match right with
    | .templateParam .. => true
    | .specializedTemplate rightTemplates rightParams =>
      specializesTemplates leftTemplates rightTemplates && specializesAll leftParams rightParams
    | _ => false
  | .templateParam .., right =>
    match right with
    | .templateParam .. => true
    | _ => false
termination_by structural left => left

def specializesTemplates : List SignatureParam → List SignatureParam → Bool
  | [left], rights =>
    match rights with
    | [right] => specializes left right
    | _ => false
  | lefts, rights => decide (lefts = rights)
termination_by structural lefts => lefts

def specializesAll : List SignatureParam → List SignatureParam → Bool
  | [], [] => true
  | left :: lefts, right :: rights => specializes left right && specializesAll lefts rights
  | _, _ => false
termination_by structural lefts => lefts

def specializesFunctionParams : List FunctionSignatureParam → List FunctionSignatureParam → Bool
  | [], [] => true
  | .mk left _ :: lefts, .mk right _ :: rights =>
    specializes left right && specializesFunctionParams lefts rights
  | _, _ => false
termination_by structural lefts => lefts

end

end

/-! ## The order -/

mutual

theorem specializes_refl : ∀ param, specializes true param param = true
  | .type _ => rfl
  | .variable_ .. => rfl
  | .typeTemplate _ => rfl
  | .templateParam .. => rfl
  | .array elementCount elementType => by
    rw [specializes, specializes_refl elementCount, specializes_refl elementType]
    rfl
  | .tuple elementTypes => specializesAll_refl elementTypes
  | .rawPointer elementType => specializes_refl elementType
  | .function returnType _ _ _ params => by
    rw [specializes, specializes_refl returnType, specializesFunctionParams_refl params]
    rfl
  | .coroutine _ returnType _ _ _ _ _ => by
    rw [specializes, specializes_refl returnType, Bool.and_true]
    exact decide_eq_true ⟨rfl, rfl, rfl, rfl, rfl⟩
  | .specializedTemplate typeTemplates params => by
    rw [specializes, specializesTemplates_refl typeTemplates, specializesAll_refl params]
    rfl

theorem specializesTemplates_refl :
    ∀ tyTemplates, specializesTemplates true tyTemplates tyTemplates = true
  | [] => by simp [specializesTemplates]
  | [typeTemplate] => specializes_refl typeTemplate
  | typeTemplate :: other :: tyTemplates => by simp [specializesTemplates]

theorem specializesAll_refl : ∀ params, specializesAll true params params = true
  | [] => rfl
  | param :: params => by
    rw [specializesAll, specializes_refl param, specializesAll_refl params]
    rfl

theorem specializesFunctionParams_refl : ∀ params, specializesFunctionParams true params params = true
  | [] => rfl
  | .mk param _ :: params => by
    rw [specializesFunctionParams, specializes_refl param, specializesFunctionParams_refl params]
    rfl

end

mutual

theorem specializes_trans : ∀ l mid r,
    specializes true l mid = true → specializes true mid r = true →
      specializes true l r = true
  | .type _, mid, r, hl, hr | .variable_ .., mid, r, hl, hr | .typeTemplate _, mid, r, hl, hr
  | .templateParam .., mid, r, hl, hr => by
    cases mid <;> cases r <;> first | rfl | contradiction
  | .array leftCount leftType, mid, r, hl, hr => by
    cases mid
    case array middleCount middleType =>
      cases r
      case array rightCount rightType =>
        rw [specializes, and_eq_true] at hl hr ⊢
        exact ⟨specializes_trans leftCount middleCount rightCount hl.1 hr.1,
          specializes_trans leftType middleType rightType hl.2 hr.2⟩
      all_goals exact hr
    all_goals cases r <;> first | rfl | contradiction
  | .tuple leftTypes, mid, r, hl, hr => by
    cases mid
    case tuple middleTypes =>
      cases r
      case tuple rightTypes => exact specializesAll_trans leftTypes middleTypes rightTypes hl hr
      all_goals exact hr
    all_goals cases r <;> first | rfl | contradiction
  | .rawPointer leftType, mid, r, hl, hr => by
    cases mid
    case rawPointer middleType =>
      cases r
      case rawPointer rightType => exact specializes_trans leftType middleType rightType hl hr
      all_goals exact hr
    all_goals cases r <;> first | rfl | contradiction
  | .function leftReturnType _ _ _ leftParams, mid, r, hl, hr => by
    cases mid
    case function middleReturnType _ _ _ middleParams =>
      cases r
      case function rightReturnType _ _ _ rightParams =>
        rw [specializes, and_eq_true] at hl hr ⊢
        exact ⟨specializes_trans leftReturnType middleReturnType rightReturnType hl.1 hr.1,
          specializesFunctionParams_trans leftParams middleParams rightParams hl.2 hr.2⟩
      all_goals exact hr
    all_goals cases r <;> first | rfl | contradiction
  | .coroutine _ leftReturnType _ _ _ _ _, mid, r, hl, hr => by
    cases mid
    case coroutine _ middleReturnType _ _ _ _ _ =>
      cases r
      case coroutine _ rightReturnType _ _ _ _ _ =>
        rw [specializes, and_eq_true, decide_eq_true_eq] at hl hr ⊢
        obtain ⟨⟨hk, hv, hreferences, hin, hrefs⟩, hl⟩ := hl
        rw [hk, hv, hreferences, hin, hrefs]
        exact ⟨hr.1,
          specializes_trans leftReturnType middleReturnType rightReturnType hl hr.2⟩
      all_goals exact hr
    all_goals cases r <;> first | rfl | contradiction
  | .specializedTemplate leftTemplates leftParams, mid, r, hl, hr => by
    cases mid
    case specializedTemplate middleTemplates middleParams =>
      cases r
      case specializedTemplate rightTemplates rightParams =>
        rw [specializes, and_eq_true] at hl hr ⊢
        exact ⟨specializesTemplates_trans leftTemplates middleTemplates rightTemplates hl.1 hr.1,
          specializesAll_trans leftParams middleParams rightParams hl.2 hr.2⟩
      all_goals exact hr
    all_goals cases r <;> first | rfl | contradiction

theorem specializesTemplates_trans : ∀ ls middles rs,
    specializesTemplates true ls middles = true →
      specializesTemplates true middles rs = true → specializesTemplates true ls rs = true
  | [], middles, rs, hl, hr => by
    rw [of_decide_eq_true hl]
    exact hr
  | [left], middles, rs, hl, hr => by
    match middles, rs, hl, hr with
    | [middle], [right], hl, hr => exact specializes_trans left middle right hl hr
  | left :: other :: ls, middles, rs, hl, hr => by
    rw [of_decide_eq_true hl]
    exact hr

theorem specializesAll_trans : ∀ ls middles rs,
    specializesAll true ls middles = true → specializesAll true middles rs = true →
      specializesAll true ls rs = true
  | [], [], rs, _, hr => hr
  | left :: ls, middle :: middles, right :: rs, hl, hr => by
    rw [specializesAll, and_eq_true] at hl hr ⊢
    exact ⟨specializes_trans left middle right hl.1 hr.1,
      specializesAll_trans ls middles rs hl.2 hr.2⟩

theorem specializesFunctionParams_trans : ∀ ls middles rs,
    specializesFunctionParams true ls middles = true →
      specializesFunctionParams true middles rs = true →
        specializesFunctionParams true ls rs = true
  | [], [], rs, _, hr => hr
  | .mk left _ :: ls, .mk middle _ :: middles, .mk right _ :: rs, hl, hr => by
    rw [specializesFunctionParams, and_eq_true] at hl hr ⊢
    exact ⟨specializes_trans left middle right hl.1 hr.1,
      specializesFunctionParams_trans ls middles rs hl.2 hr.2⟩

end

/-! ## Parameters against coroutines -/

mutual

def paramAgainstCoroutine : SignatureParam → SignatureParam → Bool
  | .templateParam .., right =>
    match right with
    | .coroutine .. => true
    | _ => false
  | .array leftCount leftType, right =>
    match right with
    | .array rightCount rightType =>
      paramAgainstCoroutine leftCount rightCount || paramAgainstCoroutine leftType rightType
    | _ => false
  | .tuple leftTypes, right =>
    match right with
    | .tuple rightTypes => someParamAgainstCoroutine leftTypes rightTypes
    | _ => false
  | .rawPointer leftType, right =>
    match right with
    | .rawPointer rightType => paramAgainstCoroutine leftType rightType
    | _ => false
  | .function leftReturnType _ _ _ leftParams, right =>
    match right with
    | .function rightReturnType _ _ _ rightParams =>
      paramAgainstCoroutine leftReturnType rightReturnType ||
        functionParamAgainstCoroutine leftParams rightParams
    | _ => false
  | .coroutine _ leftReturnType _ _ _ _ _, right =>
    match right with
    | .coroutine _ rightReturnType _ _ _ _ _ => paramAgainstCoroutine leftReturnType rightReturnType
    | _ => false
  | .specializedTemplate leftTemplates leftParams, right =>
    match right with
    | .specializedTemplate rightTemplates rightParams =>
      someParamAgainstCoroutine leftTemplates rightTemplates ||
        someParamAgainstCoroutine leftParams rightParams
    | _ => false
  | _, _ => false
termination_by structural left => left

def someParamAgainstCoroutine : List SignatureParam → List SignatureParam → Bool
  | left :: lefts, right :: rights =>
    paramAgainstCoroutine left right || someParamAgainstCoroutine lefts rights
  | _, _ => false
termination_by structural lefts => lefts

def functionParamAgainstCoroutine : List FunctionSignatureParam → List FunctionSignatureParam → Bool
  | .mk left _ :: lefts, .mk right _ :: rights =>
    paramAgainstCoroutine left right || functionParamAgainstCoroutine lefts rights
  | _, _ => false
termination_by structural lefts => lefts

end

mutual

theorem not_paramAgainstCoroutine : ∀ l r,
    specializes true l r = true → paramAgainstCoroutine l r = false
  | .type _, r, _ | .variable_ .., r, _ | .typeTemplate _, r, _ => by cases r <;> rfl
  | .templateParam .., r, h => by
    cases r
    case coroutine => cases h
    all_goals rfl
  | .array leftCount leftType, r, h => by
    cases r
    case array rightCount rightType =>
      rw [specializes, and_eq_true] at h
      rw [paramAgainstCoroutine, not_paramAgainstCoroutine leftCount rightCount h.1,
        not_paramAgainstCoroutine leftType rightType h.2]
      rfl
    all_goals rfl
  | .tuple leftTypes, r, h => by
    cases r
    case tuple rightTypes => exact not_someParamAgainstCoroutine leftTypes rightTypes h
    all_goals rfl
  | .rawPointer leftType, r, h => by
    cases r
    case rawPointer rightType => exact not_paramAgainstCoroutine leftType rightType h
    all_goals rfl
  | .function leftReturnType _ _ _ leftParams, r, h => by
    cases r
    case function rightReturnType _ _ _ rightParams =>
      rw [specializes, and_eq_true] at h
      rw [paramAgainstCoroutine, not_paramAgainstCoroutine leftReturnType rightReturnType h.1,
        not_functionParamAgainstCoroutine leftParams rightParams h.2]
      rfl
    all_goals rfl
  | .coroutine _ leftReturnType _ _ _ _ _, r, h => by
    cases r
    case coroutine _ rightReturnType _ _ _ _ _ =>
      rw [specializes, and_eq_true] at h
      exact not_paramAgainstCoroutine leftReturnType rightReturnType h.2
    all_goals rfl
  | .specializedTemplate leftTemplates leftParams, r, h => by
    cases r
    case specializedTemplate rightTemplates rightParams =>
      rw [specializes, and_eq_true] at h
      rw [paramAgainstCoroutine, not_templateAgainstCoroutine leftTemplates rightTemplates h.1,
        not_someParamAgainstCoroutine leftParams rightParams h.2]
      rfl
    all_goals rfl

theorem not_templateAgainstCoroutine : ∀ ls rs,
    specializesTemplates true ls rs = true → someParamAgainstCoroutine ls rs = false
  | [], _, _ => rfl
  | [left], rs, h => by
    match rs, h with
    | [right], h =>
      have hsin := not_paramAgainstCoroutine left right h
      rw [someParamAgainstCoroutine, hsin]
      rfl
  | left :: other :: ls, rs, h => by
    rw [← of_decide_eq_true h, someParamAgainstCoroutine, someParamAgainstCoroutine,
      not_paramAgainstCoroutine left left (specializes_refl left),
      not_paramAgainstCoroutine other other (specializes_refl other),
      not_someParamAgainstCoroutine ls ls (specializesAll_refl ls)]
    rfl

theorem not_someParamAgainstCoroutine : ∀ ls rs,
    specializesAll true ls rs = true → someParamAgainstCoroutine ls rs = false
  | [], _, _ => rfl
  | left :: ls, [], _ => rfl
  | left :: ls, right :: rs, h => by
    rw [specializesAll, and_eq_true] at h
    rw [someParamAgainstCoroutine, not_paramAgainstCoroutine left right h.1,
      not_someParamAgainstCoroutine ls rs h.2]
    rfl

theorem not_functionParamAgainstCoroutine : ∀ ls rs,
    specializesFunctionParams true ls rs = true → functionParamAgainstCoroutine ls rs = false
  | [], _, _ => rfl
  | .mk _ _ :: _, [], _ => rfl
  | .mk left _ :: ls, .mk right _ :: rs, h => by
    rw [specializesFunctionParams, and_eq_true] at h
    rw [functionParamAgainstCoroutine, not_paramAgainstCoroutine left right h.1,
      not_functionParamAgainstCoroutine ls rs h.2]
    rfl

end

theorem and_not_or (a b c d : Bool) : ((a && !c) && (b && !d)) = ((a && b) && !(c || d)) := by
  cases a <;> cases b <;> cases c <;> cases d <;> rfl

mutual

/-- Without coroutines as special ones, the order lacks what stands against parameters. -/
theorem specializes_false : ∀ l r, specializes false l r =
    (specializes true l r && !paramAgainstCoroutine r l)
  | .type _, r | .variable_ .., r | .typeTemplate _, r | .templateParam .., r => by cases r <;> rfl
  | .array leftCount leftType, r => by
    cases r
    case array rightCount rightType =>
      rw [specializes, specializes, paramAgainstCoroutine, specializes_false leftCount,
        specializes_false leftType, and_not_or]
    all_goals rfl
  | .tuple leftTypes, r => by
    cases r
    case tuple rightTypes => exact specializesAll_false leftTypes rightTypes
    all_goals rfl
  | .rawPointer leftType, r => by
    cases r
    case rawPointer rightType => exact specializes_false leftType rightType
    all_goals rfl
  | .function leftReturnType _ _ _ leftParams, r => by
    cases r
    case function rightReturnType _ _ _ rightParams =>
      rw [specializes, specializes, paramAgainstCoroutine, specializes_false leftReturnType,
        specializesFunctionParams_false leftParams, and_not_or]
    all_goals rfl
  | .coroutine _ leftReturnType _ _ _ _ _, r => by
    cases r
    case coroutine _ rightReturnType _ _ _ _ _ =>
      rw [specializes, specializes, paramAgainstCoroutine, specializes_false leftReturnType,
        Bool.and_assoc]
    all_goals rfl
  | .specializedTemplate leftTemplates leftParams, r => by
    cases r
    case specializedTemplate rightTemplates rightParams =>
      rw [specializes, specializes, paramAgainstCoroutine, specializesTemplates_false leftTemplates,
        specializesAll_false leftParams, and_not_or]
    all_goals rfl

theorem specializesTemplates_false : ∀ ls rs,
    specializesTemplates false ls rs =
      (specializesTemplates true ls rs && !someParamAgainstCoroutine rs ls)
  | [], [] => by simp [specializesTemplates, someParamAgainstCoroutine]
  | [], _ :: _ => by simp [specializesTemplates]
  | [left], rs => by
    match rs with
    | [] => rfl
    | [right] =>
      have hone := specializes_false left right
      rw [someParamAgainstCoroutine, someParamAgainstCoroutine, Bool.or_false]
      · exact hone
      · simp
    | _ :: _ :: _ => rfl
  | left :: other :: ls, rs => by
    by_cases heq : left :: other :: ls = rs
    · have hall := specializesTemplates_refl (left :: other :: ls)
      rw [← heq, not_templateAgainstCoroutine _ _ hall, hall]
      exact decide_eq_true rfl
    · rw [specializesTemplates, specializesTemplates]
      · rw [decide_eq_false heq]
        rfl
      all_goals simp

theorem specializesAll_false : ∀ ls rs,
    specializesAll false ls rs = (specializesAll true ls rs && !someParamAgainstCoroutine rs ls)
  | [], [] => rfl
  | [], _ :: _ => rfl
  | _ :: _, [] => rfl
  | left :: ls, right :: rs => by
    rw [specializesAll, specializesAll, someParamAgainstCoroutine, specializes_false left,
      specializesAll_false ls, and_not_or]

theorem specializesFunctionParams_false : ∀ ls rs,
    specializesFunctionParams false ls rs =
      (specializesFunctionParams true ls rs && !functionParamAgainstCoroutine rs ls)
  | [], [] => rfl
  | [], .mk _ _ :: _ => rfl
  | .mk _ _ :: _, [] => rfl
  | .mk left _ :: ls, .mk right _ :: rs => by
    rw [specializesFunctionParams, specializesFunctionParams, functionParamAgainstCoroutine,
      specializes_false left, specializesFunctionParams_false ls, and_not_or]

end

theorem specializes_found {l r : SignatureParam} (h : paramAgainstCoroutine r l = false) :
    specializes false l r = specializes true l r := by
  rw [specializes_false, h]
  exact and_true _

end USprache.CodeBuilder.WithArgs
