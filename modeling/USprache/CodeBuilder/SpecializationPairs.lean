import USprache.CodeBuilder.SpecializationResults
import USprache.CodeBuilder.TemplateMatching

/-!
# Pairs of template signatures that are compared

Two parameters that describe one argument are of one form, or one of them is a type or a template
parameter.  So their comparison does not reach its assertion.
-/

namespace USprache.CodeBuilder.WithArgs

open Option Bool

/-- What kind of parameter can describe an argument, apart from types and template parameters. -/
inductive ArgForm where
  | variable_ | typeTemplate | array | tuple | rawPointer | function | coroutine
  | specializedTemplate | other
deriving DecidableEq

def TemplateArg.form : TemplateArg → ArgForm
  | .variable_ .. => .variable_
  | .typeTemplate _ => .typeTemplate
  | .type (.array ..) => .array
  | .type (.tuple _) => .tuple
  | .type (.rawPointer _) => .rawPointer
  | .type (.functionPointer _) => .function
  | .type (.classType (.coroutine _)) => .coroutine
  | .type (.classType (.ofTemplate ..)) => .specializedTemplate
  | .type _ => .other

def SignatureParam.form : SignatureParam → Option ArgForm
  | .type _ | .templateParam .. => none
  | .variable_ .. => some .variable_
  | .typeTemplate _ => some .typeTemplate
  | .array .. => some .array
  | .tuple _ => some .tuple
  | .rawPointer _ => some .rawPointer
  | .function .. => some .function
  | .coroutine .. => some .coroutine
  | .specializedTemplate .. => some .specializedTemplate

section Possible

variable {ctx : MatchingContext} {holds leftHolds rightHolds : Nat → TemplateArg → Prop}

theorem describes_form {param : SignatureParam} {arg : TemplateArg} {form : ArgForm}
    (h : Describes ctx holds param arg) (hform : param.form = some form) :
    arg.form = form := by
  cases param with
  | type | templateParam => exact (nomatch hform)
  | variable_ | typeTemplate =>
    have heq : arg = _ := h
    rw [heq]
    exact some.inj hform
  | array =>
    obtain ⟨_, _, rfl, -⟩ := describes_array h
    exact some.inj hform
  | tuple =>
    obtain ⟨_, rfl, -⟩ := describes_tuple h
    exact some.inj hform
  | rawPointer =>
    obtain ⟨_, rfl, -⟩ := describes_rawPointer h
    exact some.inj hform
  | function =>
    obtain ⟨_, rfl, -⟩ := describes_function h
    exact some.inj hform
  | coroutine =>
    obtain ⟨_, -, rfl, -⟩ := describes_coroutine h
    exact some.inj hform
  | specializedTemplate =>
    obtain ⟨_, _, rfl, -⟩ := describes_specializedTemplate h
    exact some.inj hform

theorem not_describes {l r : SignatureParam} {arg : TemplateArg}
    {lForm rForm : ArgForm} (hl : Describes ctx leftHolds l arg)
    (hr : Describes ctx rightHolds r arg) (hlForm : l.form = some lForm)
    (hrForm : r.form = some rForm) (hne : lForm ≠ rForm) : False :=
  hne ((describes_form hl hlForm).symm.trans (describes_form hr hrForm))

theorem compareParams_isSome {l right : SignatureParam} {ls rs : List SignatureParam}
    (hfst : (templateSpecializationCompare l right).isSome = true)
    (hrs : ∀ r, (compareParams r ls rs).isSome = true)
    (r : ConversionsCompareResult) :
    (compareParams r (l :: ls) (right :: rs)).isSome = true := by
  obtain ⟨aR, hres⟩ := isSome_iff_exists.1 hfst
  rw [compareParams, hres]
  cases hnx : r.next aR with
  | none =>
    simp only [bind, Option.bind, hnx]
    rfl
  | some next =>
    simp only [bind, Option.bind, hnx]
    exact hrs next

mutual

theorem compare_isSome : ∀ l r arg, Describes ctx leftHolds l arg → Describes ctx rightHolds r arg →
    paramAgainstCoroutine l r = false → (templateSpecializationCompare l r).isSome = true
  | .type _, r, arg, hl, hr, _ => by
    have hl : arg = _ := hl
    cases r
    case variable_ | typeTemplate =>
      have hr : arg = _ := hr
      exact (nomatch hl.symm.trans hr)
    all_goals rfl
  | .variable_ .., r, arg, hl, hr, _ => by
    cases r
    case variable_ | templateParam => rfl
    case type =>
      have hl : arg = _ := hl
      have hr : arg = _ := hr
      exact (nomatch hl.symm.trans hr)
    all_goals exact (not_describes hl hr rfl rfl (by decide)).elim
  | .typeTemplate _, r, arg, hl, hr, _ => by
    cases r
    case typeTemplate | templateParam => rfl
    case type =>
      have hl : arg = _ := hl
      have hr : arg = _ := hr
      exact (nomatch hl.symm.trans hr)
    all_goals exact (not_describes hl hr rfl rfl (by decide)).elim
  | .templateParam .., r, arg, _, _, hag => by
    cases r
    case coroutine => cases hag
    all_goals rfl
  | .array leftCount leftType, r, arg, hl, hr, hag => by
    cases r
    case type | templateParam => rfl
    case array rightCount rightType =>
      rw [paramAgainstCoroutine, or_eq_false_iff] at hag
      obtain ⟨_, _, rfl, hl⟩ := describes_array hl
      have hc := compare_isSome leftCount rightCount _ hl.2 hr.2 hag.1
      have hty := compare_isSome leftType rightType _ hl.1 hr.1 hag.2
      obtain ⟨sizeResult, hsz⟩ := isSome_iff_exists.1 hc
      obtain ⟨typeResult, hty⟩ := isSome_iff_exists.1 hty
      rw [templateSpecializationCompare, hsz, hty]
      rfl
    all_goals exact (not_describes hl hr rfl rfl (by decide)).elim
  | .tuple leftTypes, r, arg, hl, hr, hag => by
    cases r
    case type | templateParam => rfl
    case tuple rightTypes =>
      rw [templateSpecializationCompare]
      obtain ⟨_, rfl, hl⟩ := describes_tuple hl
      rw [if_neg (not_not.2 (hl.1.symm.trans hr.1))]
      exact compareAll_isSome leftTypes rightTypes _ hl.2 hr.2 hag _
    all_goals exact (not_describes hl hr rfl rfl (by decide)).elim
  | .rawPointer leftType, r, arg, hl, hr, hag => by
    cases r
    case type | templateParam => rfl
    case rawPointer rightType =>
      obtain ⟨_, rfl, hl⟩ := describes_rawPointer hl
      exact compare_isSome leftType rightType _ hl hr hag
    all_goals exact (not_describes hl hr rfl rfl (by decide)).elim
  | .function leftReturnType _ _ _ leftParams, r, arg, hl, hr, hag => by
    cases r
    case type | templateParam => rfl
    case function rightReturnType _ _ _ rightParams =>
      rw [paramAgainstCoroutine, or_eq_false_iff] at hag
      rw [templateSpecializationCompare]
      obtain ⟨_, rfl, hl⟩ := describes_function hl
      have hret := compare_isSome leftReturnType rightReturnType _ hl.2.1 hr.2.1 hag.1
      obtain ⟨res, hres⟩ := isSome_iff_exists.1 hret
      rw [if_neg (not_not.2 (hl.2.2.1.symm.trans hr.2.2.1)), hres]
      exact compareFunctionParams_isSome leftParams rightParams _ hl.2.2.2 hr.2.2.2 hag.2 res
    all_goals exact (not_describes hl hr rfl rfl (by decide)).elim
  | .coroutine _ leftReturnType _ _ _ _ _, r, arg, hl, hr, hag => by
    cases r
    case type | templateParam => rfl
    case coroutine _ rightReturnType _ _ _ _ _ =>
      rw [templateSpecializationCompare]
      obtain ⟨_, -, rfl, hty⟩ := describes_coroutine hl
      have hret := compare_isSome leftReturnType rightReturnType _ hty hr.2 hag
      split
      · rfl
      · exact hret
    all_goals exact (not_describes hl hr rfl rfl (by decide)).elim
  | .specializedTemplate leftTemplates leftParams, r, arg, hl, hr, hag => by
    cases r
    case type | templateParam => rfl
    case specializedTemplate rightTemplates rightParams =>
      rw [paramAgainstCoroutine, or_eq_false_iff] at hag
      rw [templateSpecializationCompare]
      obtain ⟨template, signatureAs, rfl, hl⟩ := describes_specializedTemplate hl
      have htem := compareTypeTemplates_isSome leftTemplates rightTemplates template
        hl.2.1 hr.2.1 hag.1
      obtain ⟨res, hres⟩ := isSome_iff_exists.1 htem
      rw [hres]
      simp only [bind, Option.bind]
      split
      · rfl
      · split
        · rfl
        · exact compareAll_isSome leftParams rightParams signatureAs hl.2.2.1 hr.2.2.1 hag.2 res
    all_goals exact (not_describes hl hr rfl rfl (by decide)).elim

theorem compareTypeTemplates_isSome : ∀ ls rs template, DescribesTemplate ctx leftHolds ls template →
    DescribesTemplate ctx rightHolds rs template → someParamAgainstCoroutine ls rs = false →
        (compareTypeTemplates ls rs).isSome = true
  | [], rs, _, hl, _, _ => hl.elim
  | [left], rs, template, hl, hr, hag => by
    match rs, hr, hag with
    | [right], hr, hag =>
      rw [someParamAgainstCoroutine, or_eq_false_iff] at hag
      exact compare_isSome left right _ (hl.resolve_right id) (hr.resolve_right id) hag.1
    | _ :: _ :: _, _, _ => rfl
  | left :: other :: ls, rs, _, _, _, _ => by
    rw [compareTypeTemplates]
    · split
      · rfl
      · rfl
    · simp

theorem compareAll_isSome : ∀ ls rs args, DescribesAll ctx leftHolds ls args →
    DescribesAll ctx rightHolds rs args → someParamAgainstCoroutine ls rs = false →
        ∀ r, (compareParams r ls rs).isSome = true
  | [], _, _, _, _, _, _ => rfl
  | _ :: _, [], _, _, _, _, _ => rfl
  | _ :: _, _ :: _, [], hl, _, _, _ => hl.elim
  | left :: ls, right :: rs, templateArg :: args, hl, hr, hag, r => by
    rw [someParamAgainstCoroutine, or_eq_false_iff] at hag
    exact compareParams_isSome (compare_isSome left right templateArg hl.1 hr.1 hag.1)
      (compareAll_isSome ls rs args hl.2 hr.2 hag.2) r

theorem compareFunctionParams_isSome : ∀ ls rs givens, DescribesFunctionParams ctx leftHolds ls givens →
    DescribesFunctionParams ctx rightHolds rs givens →
      functionParamAgainstCoroutine ls rs = false →
        ∀ r, (compareFunctionParams r ls rs).isSome = true
  | [], _, _, _, _, _, _ => rfl
  | .mk _ _ :: _, [], _, _, _, _, _ => rfl
  | .mk _ _ :: _, .mk _ _ :: _, [], hl, _, _, _ => hl.elim
  | .mk left _ :: ls, .mk right _ :: rs, given :: givens, hl, hr, hag, r => by
    rw [functionParamAgainstCoroutine, or_eq_false_iff] at hag
    have hfst := compare_isSome left right _ hl.2.1 hr.2.1 hag.1
    obtain ⟨aR, hres⟩ := isSome_iff_exists.1 hfst
    rw [compareFunctionParams, hres]
    cases hnx : r.next aR with
    | none =>
      simp only [bind, Option.bind, hnx]
      rfl
    | some next =>
      simp only [bind, Option.bind, hnx]
      exact compareFunctionParams_isSome ls rs givens hl.2.2 hr.2.2 hag.2 next

end

end Possible

end USprache.CodeBuilder.WithArgs
