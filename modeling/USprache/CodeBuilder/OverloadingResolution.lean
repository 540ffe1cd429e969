import USprache.CodeBuilder.CallArguments
import USprache.CodeBuilder.SpecializationResults

/-!
# Overloading resolution

Of the functions that match a call one is selected.  Argument by argument, the conversions to the
parameters of the functions are compared; a function that is worse than a best one for some
argument is not selected.
-/

namespace USprache.CodeBuilder.WithArgs.OverloadingResolution

open ConversionsCompareResult

inductive ArgOverloadingClass where
  | immutableReference
  | mutalbeReference
deriving DecidableEq

def getArgOverloadingClass (param : FunctionParam) : ArgOverloadingClass :=
  if param.valueType = .referenceMut then .mutalbeReference else .immutableReference

section Compare

variable (program : CallArguments.Program)

def compareConversionsTypes (src dstLeft dstRight : LangType) : ConversionsCompareResult :=
  if dstLeft = dstRight then same
  else if src = dstLeft then leftIsBetter
  else if src = dstRight then rightIsBetter
  else if program.referenceIsConvertible src dstLeft && program.referenceIsConvertible src dstRight then
    if program.referenceIsConvertible dstRight dstLeft then rightIsBetter
    else if program.referenceIsConvertible dstLeft dstRight then leftIsBetter
    else incomparable
  else if program.referenceIsConvertible src dstLeft then leftIsBetter
  else if program.referenceIsConvertible src dstRight then rightIsBetter
  else incomparable

def compareConversionsMutability (dstLeft dstRight : FunctionParam) : ConversionsCompareResult :=
  if getArgOverloadingClass dstLeft = getArgOverloadingClass dstRight then same
  else if getArgOverloadingClass dstLeft = .mutalbeReference then leftIsBetter
  else if getArgOverloadingClass dstRight = .mutalbeReference then rightIsBetter
  else incomparable

def compareParamConversions (src dstLeft dstRight : FunctionParam) : ConversionsCompareResult :=
  let typesCompare := compareConversionsTypes program src.type dstLeft.type dstRight.type
  let mutabilityCompare := compareConversionsMutability dstLeft dstRight
  if typesCompare = mutabilityCompare then typesCompare
  else if typesCompare = incomparable ∨ mutabilityCompare = incomparable then incomparable
  else if typesCompare = same then mutabilityCompare
  else if mutabilityCompare = same then typesCompare
  else incomparable

/-- `CompareConversions` of parameters with their template signatures. -/
def compareConversions (src dstLeft dstRight : FunctionParam)
    (dstLeftTemplateParameter dstRightTemplateParameter : SignatureParam) :
    ConversionsCompareResult :=
  let conversionsCompare := compareParamConversions program src dstLeft dstRight
  if conversionsCompare = incomparable then incomparable
  else if conversionsCompare = leftIsBetter ∨ conversionsCompare = rightIsBetter then
    conversionsCompare
  else uncheckedCompare dstLeftTemplateParameter dstRightTemplateParameter

end Compare

/-- `FunctionVariable`, as far as it is looked at here. -/
structure FunctionVariable where
  type : FunctionType
  isThisCall : Bool
  isConstructor : Bool
  isConversionConstructor : Bool

/-- `Synt::FunctionParam` of a function template, with the type that is prepared in the namespace
of the template arguments. -/
structure TemplateFunctionParam where
  isThis : Bool
  isReference : Bool
  isMutable : Bool
  preparedType : LangType
deriving DecidableEq

structure TemplateFunctionPreparationResult where
  baseClass : Option Class
  params : List TemplateFunctionParam
  signatureParams : List SignatureParam

inductive OverloadingResolutionItem where
  | function (functionVariable : FunctionVariable)
  | templateFunction (preparationResult : TemplateFunctionPreparationResult)

def invalidType : LangType := .fundamental .void_

def noParam : FunctionParam := .mk invalidType .value

def dummyTemplateSignatureParam : SignatureParam := .type invalidType

def TemplateFunctionPreparationResult.paramExtendedType
    (result : TemplateFunctionPreparationResult) (param : TemplateFunctionParam) : FunctionParam :=
  .mk (if param.isThis then
      match result.baseClass with
      | some baseClass => .classType baseClass
      | none => invalidType
    else param.preparedType)
    (if param.isReference then
      if param.isMutable then .referenceMut else .referenceImut
    else .value)

namespace OverloadingResolutionItem

def getParamExtendedType (item : OverloadingResolutionItem) (paramIndex : Nat) : FunctionParam :=
  match item with
  | function functionVariable => (functionVariable.type.params[paramIndex]?).getD noParam
  | templateFunction result =>
    ((result.params[paramIndex]?).map result.paramExtendedType).getD noParam

def getTemplateSignatureParam (item : OverloadingResolutionItem) (paramIndex : Nat) :
    SignatureParam :=
  match item with
  | function _ => dummyTemplateSignatureParam
  | templateFunction result =>
    (result.signatureParams[paramIndex]?).getD dummyTemplateSignatureParam

def isThisCall : OverloadingResolutionItem → Bool
  | function functionVariable => functionVariable.isThisCall
  | templateFunction result => result.params.head?.any TemplateFunctionParam.isThis

/-- The number of the parameter for an argument.  A static function that is called through an
object has none for the object. -/
def paramNumber (firstActualArgIsThis : Bool) (item : OverloadingResolutionItem) (argN : Nat) :
    Option Nat :=
  if firstActualArgIsThis && !item.isThisCall then
    if argN = 0 then none else some (argN - 1)
  else some argN

end OverloadingResolutionItem

section Select

variable (program : CallArguments.Program) (actualArgs : List FunctionParam)
  (firstActualArgIsThis : Bool)

/-- The comparison of two functions for an argument, by the numbers of their parameters. -/
def compareForArg (argN : Nat) (functionL : OverloadingResolutionItem) (lArgN : Nat)
    (functionR : OverloadingResolutionItem) (rArgN : Nat) : ConversionsCompareResult :=
  compareConversions program ((actualArgs[argN]?).getD noParam)
    (functionL.getParamExtendedType lArgN) (functionR.getParamExtendedType rArgN)
    (functionL.getTemplateSignatureParam lArgN) (functionR.getTemplateSignatureParam rArgN)

variable (matchedFunctions : List OverloadingResolutionItem)

def isBestFunctionForCurrentArg (argN : Nat)
    (functionL : OverloadingResolutionItem) (lArgN : Nat) : Bool :=
  matchedFunctions.all fun functionR =>
    match functionR.paramNumber firstActualArgIsThis argN with
    | none => true
    | some rArgN =>
      let comp := compareForArg program actualArgs argN functionL lArgN functionR rArgN
      decide (comp = same) || decide (comp = leftIsBetter)

def markWorseFunctions (argN : Nat)
    (functionL : OverloadingResolutionItem) (lArgN : Nat) (bestFunctions : List Bool) : List Bool :=
  List.zipWith (fun functionR flag =>
    match functionR.paramNumber firstActualArgIsThis argN with
    | none => flag
    | some rArgN =>
      if compareForArg program actualArgs argN functionL lArgN functionR rArgN ≠ same then false
      else flag) matchedFunctions bestFunctions

/-- The loops over the functions on the left, for one argument. -/
def checkArg (bestFunctions : List Bool)
    (argN : Nat) : List Bool :=
  matchedFunctions.foldl (fun bestFunctions functionL =>
    match functionL.paramNumber firstActualArgIsThis argN with
    | none => bestFunctions
    | some lArgN =>
      if isBestFunctionForCurrentArg program actualArgs firstActualArgIsThis matchedFunctions argN
        functionL lArgN then
        markWorseFunctions program actualArgs firstActualArgIsThis matchedFunctions argN functionL
          lArgN bestFunctions
      else bestFunctions) bestFunctions

/-- The loop that looks for the only function whose flag is set. -/
def selectFlagged (selected : Option OverloadingResolutionItem) :
    List (OverloadingResolutionItem × Bool) → Option OverloadingResolutionItem
  | [] => selected
  | (_, false) :: rest => selectFlagged selected rest
  | (function_, true) :: rest =>
    match selected with
    | none => selectFlagged (some function_) rest
    | some _ => none

/-- With `none` the error `TooManySuitableOverloadedFunctions` is reported. -/
def selectOverloadedFunction :
    Option OverloadingResolutionItem :=
  match matchedFunctions with
  | [function_] => some function_
  | _ =>
    let bestFunctions := (List.range actualArgs.length).foldl
      (checkArg program actualArgs firstActualArgIsThis matchedFunctions)
      (matchedFunctions.map fun _ => true)
    selectFlagged none (matchedFunctions.zip bestFunctions)

end Select

section Order

variable {program : CallArguments.Program}

def ParentStep (program : CallArguments.Program) (class_ other : Class) : Prop :=
  ∃ parent ∈ (program.info class_).parents, parent.class_ = other

theorem rank_lt_of_transGen {cls other : Class} (h : Relation.TransGen (ParentStep program) cls other) :
    program.rank other < program.rank cls := by
  induction h with
  | single hst =>
    obtain ⟨p, hpar, rfl⟩ := hst
    exact program.rank_parent cls p hpar
  | tail _ hst ih =>
    obtain ⟨p, hpar, rfl⟩ := hst
    exact (program.rank_parent _ p hpar).trans ih

theorem classIsConvertibleTo_iff {other : Class} (rank : Nat) : ∀ cls,
    program.rank cls ≤ rank → (program.classIsConvertibleTo other rank cls = true ↔
      Relation.ReflTransGen (ParentStep program) cls other) := by
  induction rank with
  | zero =>
    intro cls hrank
    rw [CallArguments.Program.classIsConvertibleTo, decide_eq_true_eq]
    constructor
    · rintro rfl
      exact .refl
    · intro h
      rcases Relation.reflTransGen_iff_eq_or_transGen.1 h with heq | htr
      · exact heq.symm
      · have hlt := rank_lt_of_transGen htr
        omega
  | succ rank ih =>
    intro cls hrank
    rw [CallArguments.Program.classIsConvertibleTo, Bool.or_eq_true, decide_eq_true_eq,
      List.any_eq_true]
    constructor
    · rintro (rfl | ⟨p, hpar, hconv⟩)
      · exact .refl
      · have hlt := program.rank_parent cls p hpar
        exact .head ⟨p, hpar, rfl⟩ ((ih p.class_ (by omega)).1 hconv)
    · intro h
      rcases Relation.ReflTransGen.cases_head h with heq | ⟨next, ⟨p, hpar, heq⟩, hrs⟩
      · exact .inl heq
      · have hlt := program.rank_parent cls p hpar
        rw [← heq] at hrs
        exact .inr ⟨p, hpar, (ih p.class_ (by omega)).2 hrs⟩

variable {other t : LangType}

theorem referenceIsConvertible_iff :
    program.referenceIsConvertible t other = true ↔ t = other ∨ ∃ cls otherClass,
      t = .classType cls ∧ other = .classType otherClass ∧
        Relation.ReflTransGen (ParentStep program) cls otherClass := by
  unfold CallArguments.Program.referenceIsConvertible
  rw [Bool.or_eq_true, decide_eq_true_eq]
  refine or_congr Iff.rfl ?_
  split
  · next cls otherClass =>
    simp only [LangType.classType.injEq, exists_and_left, exists_eq_left']
    exact classIsConvertibleTo_iff (program.rank cls) cls le_rfl
  · next hne =>
    constructor
    · intro h
      cases h
    · rintro ⟨cls, otherClass, hty, ho, -⟩
      exact absurd ho (hne cls otherClass hty)

theorem referenceIsConvertible_trans {mid : LangType}
    (h : program.referenceIsConvertible t mid = true)
    (h' : program.referenceIsConvertible mid other = true) :
    program.referenceIsConvertible t other = true := by
  rw [referenceIsConvertible_iff] at h h' ⊢
  rcases h with rfl | ⟨cls, midCls, rfl, rfl, hfst⟩
  · exact h'
  · rcases h' with rfl | ⟨middleClass', otherClass, heq, rfl, hrs⟩
    · exact .inr ⟨cls, midCls, rfl, rfl, hfst⟩
    · rw [← LangType.classType.inj heq] at hrs
      exact .inr ⟨cls, otherClass, rfl, rfl, hfst.trans hrs⟩

theorem referenceIsConvertible_antisymm (h : program.referenceIsConvertible t other = true)
    (h' : program.referenceIsConvertible other t = true) : t = other := by
  rw [referenceIsConvertible_iff] at h h'
  rcases h with heq | ⟨class_, otherClass, rfl, rfl, hfor⟩
  · exact heq
  · rcases h' with heq | ⟨otherClass', class', heq, heq', hbk⟩
    · exact heq.symm
    · rw [← LangType.classType.inj heq, ← LangType.classType.inj heq'] at hbk
      rcases Relation.reflTransGen_iff_eq_or_transGen.1 hfor with hsame | htr
      · rw [hsame]
      · have hlp := rank_lt_of_transGen (htr.trans_left hbk)
        exact absurd hlp (lt_irrefl _)

end Order

end USprache.CodeBuilder.WithArgs.OverloadingResolution
