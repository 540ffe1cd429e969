import USprache.CodeBuilder.OverloadSelection

/-!
# Sets of overloaded functions

A function is added to a set if it differs from all functions there in the number of parameters
or in the type or the overloading class of some parameter.  So a call whose arguments are exactly
the parameters of one function has no choice, except between a function of an object and one
without.
-/

namespace USprache.CodeBuilder.WithArgs.OverloadingResolution

open OverloadingResolutionItem Library List Nat

def paramIsSameCount : List FunctionParam → List FunctionParam → Nat
  | param :: params, setParam :: setParams =>
    if param.type ≠ setParam.type then paramIsSameCount params setParams
    else if getArgOverloadingClass param = getArgOverloadingClass setParam then
      paramIsSameCount params setParams + 1
    else paramIsSameCount params setParams
  | _, _ => 0

/-- A function of the set does not allow overloading. -/
def hasSameParams (functionType setFunctionType : FunctionType) : Bool :=
  if functionType.params.length ≠ setFunctionType.params.length then false
  else decide (paramIsSameCount functionType.params setFunctionType.params =
    functionType.params.length)

/-- With `none` the error `CouldNotOverloadFunction` is reported. -/
def applyOverloadedFunction (functionsSet : List FunctionVariable) (function_ : FunctionVariable) :
    Option (List FunctionVariable) :=
  if functionsSet.isEmpty then some (functionsSet ++ [function_])
  else if functionsSet.any fun setFunction => hasSameParams function_.type setFunction.type then none
  else some (functionsSet ++ [function_])

structure SameForOverloading (param other : FunctionParam) : Prop where
  type : param.type = other.type
  overloadingClass : getArgOverloadingClass param = getArgOverloadingClass other

structure SameParams (params others : List FunctionParam) : Prop where
  length : params.length = others.length
  same : ∀ (n : Nat) (param other : FunctionParam), params[n]? = some param →
    others[n]? = some other → SameForOverloading param other

theorem sameParams_cons {param other : FunctionParam} {params others : List FunctionParam} :
    SameParams (param :: params) (other :: others) ↔
      SameForOverloading param other ∧ SameParams params others := by
  constructor
  · intro h
    refine ⟨h.same 0 param other rfl rfl, succ_inj.1 h.length, fun n l r hl hr => ?_⟩
    exact h.same (n + 1) l r hl hr
  · rintro ⟨hhd, htl⟩
    refine ⟨congrArg succ htl.length, fun n l r hl hr => ?_⟩
    cases n with
    | zero =>
      rw [← Option.some.inj hl, ← Option.some.inj hr]
      exact hhd
    | succ n => exact htl.same n l r hl hr

theorem SameParams.symm {params others : List FunctionParam} (h : SameParams params others) :
    SameParams others params where
  length := h.length.symm
  same n param other hp hother :=
    have heq := h.same n other param hother hp
    ⟨heq.type.symm, heq.overloadingClass.symm⟩

variable (params : List FunctionParam)

theorem SameParams.refl : SameParams params params where
  length := rfl
  same n param other hp hother := by
    rw [hp] at hother
    rw [Option.some.inj hother]
    exact ⟨rfl, rfl⟩

theorem paramIsSameCount_le (others : List FunctionParam) :
    paramIsSameCount params others ≤ params.length := by
  induction params, others using paramIsSameCount.induct with
  | case1 param params other others hne ih =>
    rw [paramIsSameCount, if_pos hne, length_cons]
    omega
  | case2 param params other others heq hcl ih =>
    rw [paramIsSameCount, if_neg heq, if_pos hcl, length_cons]
    omega
  | case3 param params other others heq hcl ih =>
    rw [paramIsSameCount, if_neg heq, if_neg hcl, length_cons]
    omega
  | case4 params others hnot =>
    rw [paramIsSameCount]
    · exact zero_le _
    · exact hnot

theorem paramIsSameCount_eq_length_iff (others : List FunctionParam)
    (hlen : params.length = others.length) :
    paramIsSameCount params others = params.length ↔ SameParams params others := by
  induction params generalizing others with
  | nil =>
    refine ⟨fun _ => ⟨hlen, fun n param other hp _ => ?_⟩, fun _ => rfl⟩
    exact absurd hp.symm (Option.some_ne_none param)
  | cons param params ih =>
    match others, hlen with
    | other :: others, hlen =>
      have hle := paramIsSameCount_le params others
      rw [sameParams_cons, ← ih others (succ_inj.1 hlen), paramIsSameCount, length_cons]
      by_cases hty : param.type = other.type
      · by_cases hcl : getArgOverloadingClass param = getArgOverloadingClass other
        · rw [if_neg (not_not_intro hty), if_pos hcl, succ_inj]
          exact (and_iff_right ⟨hty, hcl⟩).symm
        · rw [if_neg (not_not_intro hty), if_neg hcl]
          constructor
          · omega
          · exact fun h => absurd h.1.overloadingClass hcl
      · rw [if_pos hty]
        constructor
        · omega
        · exact fun h => absurd h.1.type hty

theorem hasSameParams_iff (fTy setFTy : FunctionType) : hasSameParams fTy setFTy = true ↔
    SameParams fTy.params setFTy.params := by
  unfold hasSameParams
  by_cases hlen : fTy.params.length = setFTy.params.length
  · rw [if_neg (not_not_intro hlen), decide_eq_true_eq, paramIsSameCount_eq_length_iff _ _ hlen]
  · rw [if_pos hlen]
    exact iff_of_false Bool.false_ne_true fun h => hlen h.length

def Distinguishable (function_ other : FunctionVariable) : Prop :=
  ¬ SameParams function_.type.params other.type.params

variable {function_ : FunctionVariable}

theorem applyOverloadedFunction_some {functionsSet newSet : List FunctionVariable}
    (h : applyOverloadedFunction functionsSet function_ = some newSet) :
    newSet = functionsSet ++ [function_] ∧
      ∀ setF ∈ functionsSet, Distinguishable setF function_ := by
  unfold applyOverloadedFunction at h
  split at h
  · next he =>
    rw [isEmpty_iff.1 he] at h ⊢
    exact ⟨(Option.some.inj h).symm, nofun⟩
  · split at h
    · cases h
    · next hno =>
      refine ⟨(Option.some.inj h).symm, fun setF hmem heq => hno ?_⟩
      exact any_eq_true.2 ⟨setF, hmem, (hasSameParams_iff _ _).2 heq.symm⟩

theorem pairwise_applyOverloadedFunction {functionsSet newSet : List FunctionVariable}
    (hset : functionsSet.Pairwise Distinguishable)
    (h : applyOverloadedFunction functionsSet function_ = some newSet) :
    newSet.Pairwise Distinguishable := by
  obtain ⟨rfl, hdf⟩ := applyOverloadedFunction_some h
  rw [pairwise_append]
  refine ⟨hset, pairwise_singleton _ _, fun setF hmem other hother => ?_⟩
  rw [mem_singleton.1 hother]
  exact hdf setF hmem

theorem pairwise_of_applies (fs : List FunctionVariable) :
    ∀ {functionsSet newSet : List FunctionVariable}, functionsSet.Pairwise Distinguishable →
      fs.foldlM applyOverloadedFunction functionsSet = some newSet →
      newSet.Pairwise Distinguishable := by
  induction fs with
  | nil =>
    intro functionsSet newSet hset h
    rw [← Option.some.inj h]
    exact hset
  | cons function_ fs ih =>
    intro functionsSet newSet hset h
    obtain ⟨nextSet, hnx, hrs⟩ := Option.bind_eq_some_iff.1 h
    exact ih (pairwise_applyOverloadedFunction hset hnx) hrs

def isCopyConstructor (functionType : FunctionType) (baseClass : LangType) : Bool :=
  match functionType.params with
  | [first, second] =>
    decide (first.type = baseClass) && decide (first.valueType = .referenceMut) &&
      decide (second.type = baseClass) && decide (second.valueType = .referenceImut)
  | _ => false

section Match

variable (program : CallArguments.Program) (ensureTypeComplete : LangType → Bool)
  (enableTypeConversions : Bool)

def typeIsCompatible (function_ : FunctionVariable) (arg param : FunctionParam) : Bool :=
  if arg.type = param.type then true
  else if !(ensureTypeComplete param.type && ensureTypeComplete arg.type) then false
  else if program.referenceIsConvertible arg.type param.type then true
  else
    enableTypeConversions && decide (getArgOverloadingClass param = .immutableReference) &&
      !function_.isConversionConstructor &&
      !(function_.isConstructor && function_.type.params.head?.any fun front =>
        isCopyConstructor function_.type front.type) &&
      program.hasConversionConstructor ⟨arg.type, arg.valueType⟩ param.type

/-- Mutable references are bound to mutable references only. -/
def classIsCompatible (arg param : FunctionParam) : Bool :=
  if getArgOverloadingClass arg = getArgOverloadingClass param then true
  else if getArgOverloadingClass param = .mutalbeReference ∧
    getArgOverloadingClass arg ≠ .mutalbeReference then false
  else true

variable (actualArgs : List FunctionParam) (firstActualArgIsThis : Bool)

/-- In a call of a static function through an object the arguments are those after it. -/
def argsFor (function_ : FunctionVariable) : List FunctionParam :=
  if firstActualArgIsThis && !function_.isThisCall then actualArgs.drop 1 else actualArgs

def isMatched (function_ : FunctionVariable) : Bool :=
  if function_.type.params.length ≠ (argsFor actualArgs firstActualArgIsThis function_).length then
    false
  else
    ((argsFor actualArgs firstActualArgIsThis function_).zip function_.type.params).all fun pair =>
      typeIsCompatible program ensureTypeComplete enableTypeConversions function_ pair.1 pair.2 &&
        classIsCompatible pair.1 pair.2

/-- `FetchMatchedOverloadedFunctions`, for a set without function templates. -/
def fetchMatchedOverloadedFunctions (functionsSet : List FunctionVariable) :
    List OverloadingResolutionItem :=
  (functionsSet.filter (isMatched program ensureTypeComplete enableTypeConversions actualArgs
    firstActualArgIsThis)).map .function

variable {program ensureTypeComplete enableTypeConversions actualArgs firstActualArgIsThis}

theorem isMatched_iff {function_ : FunctionVariable} :
    isMatched program ensureTypeComplete enableTypeConversions actualArgs firstActualArgIsThis
        function_ = true ↔
      function_.type.params.length = (argsFor actualArgs firstActualArgIsThis function_).length ∧
      ∀ (n : Nat) (arg param : FunctionParam),
        (argsFor actualArgs firstActualArgIsThis function_)[n]? = some arg →
        function_.type.params[n]? = some param →
        typeIsCompatible program ensureTypeComplete enableTypeConversions function_ arg param = true ∧
          classIsCompatible arg param = true := by
  unfold isMatched
  by_cases hlen :
      function_.type.params.length = (argsFor actualArgs firstActualArgIsThis function_).length
  · rw [if_neg (not_not_intro hlen), all_eq_true]
    constructor
    · intro h
      refine ⟨hlen, fun n arg param harg hp => ?_⟩
      have hmem := mem_of_getElem? (getElem?_zip_eq_some.2
        (show _ ∧ _ from ⟨harg, hp⟩) : _ = some (arg, param))
      exact Bool.and_eq_true_iff.1 (h (arg, param) hmem)
    · intro h p hpr
      obtain ⟨n, hn⟩ := getElem?_of_mem hpr
      have hzip := getElem?_zip_eq_some.1 hn
      exact Bool.and_eq_true_iff.2 (h.2 n p.1 p.2 hzip.1 hzip.2)
  · rw [if_pos hlen]
    exact iff_of_false Bool.false_ne_true fun h => hlen h.1

theorem classIsCompatible_iff {arg param : FunctionParam} : classIsCompatible arg param = true ↔
    (getArgOverloadingClass param = .mutalbeReference →
      getArgOverloadingClass arg = .mutalbeReference) := by
  unfold classIsCompatible
  cases getArgOverloadingClass arg <;> cases getArgOverloadingClass param <;> decide

end Match

section Exact

variable {program : CallArguments.Program} {arg param other : FunctionParam}

/-- Nothing that takes the argument is better than a parameter that is the same. -/
theorem paramAtLeast_of_same (heq : SameForOverloading arg param)
    (hother : classIsCompatible arg other = true) :
    paramAtLeast program arg param other = true := by
  rw [paramAtLeast, Bool.and_eq_true]
  constructor
  · simp [typeAtLeast, heq.type]
  · have hmut := classIsCompatible_iff.1 hother
    rw [heq.overloadingClass] at hmut
    unfold mutabilityAtLeast
    cases hcl : getArgOverloadingClass other with
    | immutableReference => simp
    | mutalbeReference => simp [hmut hcl]

theorem same_of_paramAtLeast (heq : SameForOverloading arg param)
    (hother : classIsCompatible arg other = true)
    (h : paramAtLeast program arg other param = true) : SameForOverloading other param := by
  rw [paramAtLeast, Bool.and_eq_true] at h
  constructor
  · have hty := h.1
    unfold typeAtLeast at hty
    rw [heq.type] at hty
    simp only [ne_eq, not_true_eq_false, decide_false, Bool.false_and, Bool.or_false,
      Bool.or_eq_true, decide_eq_true_eq] at hty
    exact hty.elim id Eq.symm
  · have hmut := classIsCompatible_iff.1 hother
    have hat := h.2
    unfold mutabilityAtLeast at hat
    rw [heq.overloadingClass] at hmut
    cases hcl : getArgOverloadingClass other <;>
      cases hp : getArgOverloadingClass param <;> simp_all

variable (actualArgs : List FunctionParam) (firstActualArgIsThis : Bool)

structure ParamFor (function_ : FunctionVariable) (argN : Nat) (arg param : FunctionParam) : Prop where
  arg_eq : actualArgs[argN]? = some arg
  number : ∃ paramN, (OverloadingResolutionItem.function function_).paramNumber
    firstActualArgIsThis argN = some paramN ∧
      (argsFor actualArgs firstActualArgIsThis function_)[paramN]? = some arg ∧
      function_.type.params[paramN]? = some param

variable {actualArgs firstActualArgIsThis} {otherF : FunctionVariable} {argN paramN : Nat}

theorem argsFor_getElem? (h : (OverloadingResolutionItem.function function_).paramNumber
    firstActualArgIsThis argN = some paramN) :
    (argsFor actualArgs firstActualArgIsThis function_)[paramN]? = actualArgs[argN]? := by
  unfold paramNumber at h
  unfold argsFor
  by_cases hsta : (firstActualArgIsThis && !function_.isThisCall) = true
  · rw [if_pos (show (_ && !(function function_).isThisCall) = true from hsta)] at h
    rw [if_pos hsta]
    by_cases hz : argN = 0
    · rw [if_pos hz] at h
      cases h
    · rw [if_neg hz] at h
      rw [getElem?_drop, ← Option.some.inj h]
      congr 1
      omega
  · rw [if_neg (show ¬ (_ && !(function function_).isThisCall) = true from hsta)] at h
    rw [if_neg hsta, Option.some.inj h]

theorem paramFor_of_number (hargN : argN < actualArgs.length)
    (hnum : (OverloadingResolutionItem.function function_).paramNumber firstActualArgIsThis argN =
      some paramN) (hp : function_.type.params[paramN]? = some param) :
    ParamFor actualArgs firstActualArgIsThis function_ argN actualArgs[argN] param where
  arg_eq := getElem?_eq_getElem hargN
  number := ⟨paramN, hnum, (argsFor_getElem? hnum).trans (getElem?_eq_getElem hargN), hp⟩

theorem exists_paramFor (hlen : function_.type.params.length =
      (argsFor actualArgs firstActualArgIsThis function_).length)
    (hargN : argN < actualArgs.length)
    (htk : ((OverloadingResolutionItem.function function_).paramNumber firstActualArgIsThis
      argN).isSome = true) :
    ∃ param, ParamFor actualArgs firstActualArgIsThis function_ argN actualArgs[argN] param := by
  obtain ⟨paramN, hnum⟩ := Option.isSome_iff_exists.1 htk
  have hargs : (argsFor actualArgs firstActualArgIsThis function_)[paramN]? = _ :=
    (argsFor_getElem? hnum).trans (getElem?_eq_getElem hargN)
  have hpN : paramN < function_.type.params.length := by
    rw [hlen]
    exact (List.getElem?_eq_some_iff.1 hargs).1
  exact ⟨_, paramFor_of_number hargN hnum (getElem?_eq_getElem hpN)⟩

theorem leftHolds_compareAt_function {l r : FunctionVariable} {lPar rPar : FunctionParam}
    (hl : ParamFor actualArgs firstActualArgIsThis l argN arg lPar)
    (hr : ParamFor actualArgs firstActualArgIsThis r argN arg rPar) :
    (compareAt program actualArgs firstActualArgIsThis argN (.function l)
      (.function r)).leftHolds = paramAtLeast program arg lPar rPar := by
  obtain ⟨leftN, hlNum, -, hlP⟩ := hl.number
  obtain ⟨rightN, hrNum, -, hrP⟩ := hr.number
  have hlFor : paramForArg firstActualArgIsThis argN (.function l) =
      (lPar, dummyTemplateSignatureParam) := by
    simp [paramForArg, hlNum, getParamExtendedType, getTemplateSignatureParam, hlP]
  have hrFor : paramForArg firstActualArgIsThis argN (.function r) =
      (rPar, dummyTemplateSignatureParam) := by
    simp [paramForArg, hrNum, getParamExtendedType, getTemplateSignatureParam, hrP]
  rw [compareAt, leftHolds_compareConversions, hlFor, hrFor, hl.arg_eq, conversionAtLeast,
    specializes_refl, Bool.or_true, Bool.and_true]
  rfl

end Exact

section Resolved

variable {program : CallArguments.Program} {ensureTypeComplete : LangType → Bool}
  {enableTypeConversions : Bool} {actualArgs : List FunctionParam} {firstActualArgIsThis : Bool}
  {functionsSet : List FunctionVariable} {other : FunctionVariable} {argN : Nat}

theorem mem_fetchMatchedOverloadedFunctions {item : OverloadingResolutionItem} :
    item ∈ fetchMatchedOverloadedFunctions program ensureTypeComplete enableTypeConversions
        actualArgs firstActualArgIsThis functionsSet ↔
      ∃ function_ ∈ functionsSet, isMatched program ensureTypeComplete enableTypeConversions
        actualArgs firstActualArgIsThis function_ = true ∧ .function function_ = item := by
  unfold fetchMatchedOverloadedFunctions
  simp only [mem_map, mem_filter, and_assoc]

variable (program ensureTypeComplete enableTypeConversions actualArgs firstActualArgIsThis
  functionsSet) in
/-- No argument of the call eliminates the function. -/
def Remains (function_ : FunctionVariable) : Prop :=
  (comparisons program actualArgs firstActualArgIsThis).Survives
    (fetchMatchedOverloadedFunctions program ensureTypeComplete enableTypeConversions actualArgs
      firstActualArgIsThis functionsSet) (.function function_)

def TakesExactly (actualArgs : List FunctionParam) (firstActualArgIsThis : Bool)
    (function_ : FunctionVariable) : Prop :=
  SameParams (argsFor actualArgs firstActualArgIsThis function_) function_.type.params

theorem TakesExactly.matched (hexact : TakesExactly actualArgs firstActualArgIsThis function_) :
    isMatched program ensureTypeComplete enableTypeConversions actualArgs firstActualArgIsThis
      function_ = true := by
  refine isMatched_iff.2 ⟨hexact.length.symm, fun n arg param harg hp => ?_⟩
  have heq := hexact.same n arg param harg hp
  constructor
  · rw [typeIsCompatible, if_pos heq.type]
  · rw [classIsCompatible, if_pos heq.overloadingClass]

variable (hexact : TakesExactly actualArgs firstActualArgIsThis function_)
  (hother : isMatched program ensureTypeComplete enableTypeConversions actualArgs
    firstActualArgIsThis other = true)
  (hargN : argN < actualArgs.length)

include hexact hother hargN

theorem TakesExactly.le
    (htk : ((OverloadingResolutionItem.function function_).paramNumber firstActualArgIsThis
      argN).isSome = true)
    (hoTk : ((OverloadingResolutionItem.function other).paramNumber firstActualArgIsThis
      argN).isSome = true) :
    (compareAt program actualArgs firstActualArgIsThis argN (.function function_)
      (.function other)).leftHolds = true := by
  have hmat := isMatched_iff.1 hother
  obtain ⟨param, hp⟩ := exists_paramFor hexact.length.symm hargN htk
  obtain ⟨otherParam, hoP⟩ := exists_paramFor hmat.1 hargN hoTk
  rw [leftHolds_compareAt_function hp hoP]
  obtain ⟨paramN, -, harg, hpN⟩ := hp.number
  obtain ⟨otherN, -, hoArg, hoN⟩ := hoP.number
  exact paramAtLeast_of_same (hexact.same paramN _ _ harg hpN) (hmat.2 otherN _ _ hoArg hoN).2

theorem TakesExactly.same_of_le {paramN otherN : Nat} {param otherParam : FunctionParam}
    (hnum : (OverloadingResolutionItem.function function_).paramNumber firstActualArgIsThis argN =
      some paramN) (hp : function_.type.params[paramN]? = some param)
    (hoNum : (OverloadingResolutionItem.function other).paramNumber firstActualArgIsThis argN =
      some otherN) (hoP : other.type.params[otherN]? = some otherParam)
    (hle : (compareAt program actualArgs firstActualArgIsThis argN (.function other)
      (.function function_)).leftHolds = true) : SameForOverloading otherParam param := by
  have harg := getElem?_eq_getElem hargN
  rw [leftHolds_compareAt_function (paramFor_of_number hargN hoNum hoP)
    (paramFor_of_number hargN hnum hp)] at hle
  have heq := hexact.same paramN _ _ ((argsFor_getElem? hnum).trans harg) hp
  have hcom := (isMatched_iff.1 hother).2 otherN _ _ ((argsFor_getElem? hoNum).trans harg) hoP
  exact same_of_paramAtLeast heq hcom.2 hle

omit hother hargN

theorem TakesExactly.survives : Remains program ensureTypeComplete enableTypeConversions actualArgs
    firstActualArgIsThis functionsSet function_ := by
  intro argN hargN htk best hbe
  obtain ⟨other, -, hother, rfl⟩ := mem_fetchMatchedOverloadedFunctions.1 hbe.mem
  exact hexact.le hother (mem_range.1 hargN) htk hbe.takesPart

variable (hmem : function_ ∈ functionsSet)
  (hsv : Remains program ensureTypeComplete enableTypeConversions actualArgs firstActualArgIsThis
    functionsSet other)

include hother hargN hmem hsv

/-- What is not eliminated has the same parameter for each argument that both take. -/
theorem TakesExactly.same_of_survives
    {paramN otherN : Nat} {param otherParam : FunctionParam}
    (hnum : (OverloadingResolutionItem.function function_).paramNumber firstActualArgIsThis argN =
      some paramN) (hp : function_.type.params[paramN]? = some param)
    (hoNum : (OverloadingResolutionItem.function other).paramNumber firstActualArgIsThis argN =
      some otherN) (hoP : other.type.params[otherN]? = some otherParam) :
    SameForOverloading otherParam param := by
  have htk := Option.isSome_iff_exists.2 ⟨paramN, hnum⟩
  have hbe : (comparisons program actualArgs firstActualArgIsThis).IsBest
      (fetchMatchedOverloadedFunctions program ensureTypeComplete enableTypeConversions actualArgs
        firstActualArgIsThis functionsSet) argN (.function function_) := by
    refine ⟨mem_fetchMatchedOverloadedFunctions.2 ⟨function_, hmem, hexact.matched, rfl⟩, htk,
      fun item hitem hitemTk => ?_⟩
    obtain ⟨third, -, hthi, rfl⟩ := mem_fetchMatchedOverloadedFunctions.1 hitem
    exact hexact.le hthi hargN htk hitemTk
  refine hexact.same_of_le hother hargN hnum hp hoNum hoP ?_
  exact hsv argN (mem_range.2 hargN) (Option.isSome_iff_exists.2 ⟨otherN, hoNum⟩)
    _ hbe

omit hargN

/-- Among functions that are called in the same way, what is not eliminated has the same
parameters. -/
theorem TakesExactly.sameParams_of_survives
    (hk : firstActualArgIsThis = true → other.isThisCall = function_.isThisCall) :
    SameParams other.type.params function_.type.params := by
  have hargs : argsFor actualArgs firstActualArgIsThis other =
      argsFor actualArgs firstActualArgIsThis function_ := by
    unfold argsFor
    cases firstActualArgIsThis with
    | false => rfl
    | true => rw [hk rfl]
  refine ⟨?_, fun n otherParam param hoP hp => ?_⟩
  · rw [(isMatched_iff.1 hother).1, hargs, hexact.length]
  · obtain ⟨argN, hargN, hnum, hoNum⟩ : ∃ argN < actualArgs.length,
        (function function_).paramNumber firstActualArgIsThis argN = some n ∧
          (function other).paramNumber firstActualArgIsThis argN = some n := by
      have hn : n < (argsFor actualArgs firstActualArgIsThis function_).length := by
        rw [hexact.length]
        exact (List.getElem?_eq_some_iff.1 hp).1
      cases hsta : firstActualArgIsThis && !function_.isThisCall with
      | false =>
        have hoSta : (firstActualArgIsThis && !other.isThisCall) = false := by
          cases firstActualArgIsThis with
          | false => rfl
          | true => rw [hk rfl, hsta]
        rw [argsFor, hsta] at hn
        refine ⟨n, hn, ?_, ?_⟩
        · simp [paramNumber, isThisCall, hsta]
        · simp [paramNumber, isThisCall, hoSta]
      | true =>
        have hoSta : (firstActualArgIsThis && !other.isThisCall) = true := by
          cases firstActualArgIsThis with
          | false => cases hsta
          | true => rw [hk rfl, hsta]
        rw [argsFor, hsta, if_pos rfl, length_drop] at hn
        refine ⟨n + 1, by omega, ?_, ?_⟩
        · simp [paramNumber, isThisCall, hsta]
        · simp [paramNumber, isThisCall, hoSta]
    exact hexact.same_of_survives hother hargN hmem hsv hnum hp hoNum hoP

end Resolved

def FunctionVariable.paramsApartFromThis (function_ : FunctionVariable) : List FunctionParam :=
  if function_.isThisCall then function_.type.params.drop 1 else function_.type.params

theorem length_paramsApartFromThis {actualArgs : List FunctionParam}
    (hlen : function_.type.params.length = (argsFor actualArgs true function_).length) :
    function_.paramsApartFromThis.length = actualArgs.length - 1 := by
  unfold argsFor at hlen
  unfold FunctionVariable.paramsApartFromThis
  cases hthis : function_.isThisCall with
  | false => simpa [hthis] using hlen
  | true =>
    have hps : function_.type.params.length = actualArgs.length := by
      simpa [hthis] using hlen
    rw [if_pos rfl, length_drop, hps]

theorem exists_paramNumber (function_ : FunctionVariable) (n : Nat) :
    ∃ paramN, (OverloadingResolutionItem.function function_).paramNumber true (n + 1) = some paramN ∧
      function_.type.params[paramN]? = function_.paramsApartFromThis[n]? := by
  unfold FunctionVariable.paramsApartFromThis
  cases hthis : function_.isThisCall with
  | false => exact ⟨n, by simp [paramNumber, isThisCall, hthis], by simp⟩
  | true =>
    refine ⟨n + 1, by simp [paramNumber, isThisCall, hthis], ?_⟩
    rw [if_pos rfl, getElem?_drop, add_comm]

theorem TakesExactly.sameParamsApartFromThis {program : CallArguments.Program}
    {ensureTypeComplete : LangType → Bool} {enableTypeConversions : Bool}
    {actualArgs : List FunctionParam} {functionsSet : List FunctionVariable}
    {function_ other : FunctionVariable} (hexact : TakesExactly actualArgs true function_)
    (hother : isMatched program ensureTypeComplete enableTypeConversions actualArgs true other = true)
    (hmem : function_ ∈ functionsSet)
    (hsv : Remains program ensureTypeComplete enableTypeConversions actualArgs true functionsSet
      other) :
    SameParams other.paramsApartFromThis function_.paramsApartFromThis := by
  have hlen := length_paramsApartFromThis hexact.length.symm
  refine ⟨(length_paramsApartFromThis (isMatched_iff.1 hother).1).trans hlen.symm,
    fun n otherParam param hoP hp => ?_⟩
  obtain ⟨paramN, hnum, hpN⟩ := exists_paramNumber function_ n
  obtain ⟨otherN, hoNum, hoN⟩ := exists_paramNumber other n
  have hn : n + 1 < actualArgs.length := by
    have hlt := (List.getElem?_eq_some_iff.1 hp).1
    omega
  exact hexact.same_of_survives hother hn hmem hsv hnum (hpN.trans hp) hoNum (hoN.trans hoP)

theorem eq_singleton_of_pairwise {α : Type} {R : α → α → Prop} {x : α} {xs : List α}
    (hpw : xs.Pairwise R) (hmem : x ∈ xs) (hnot : ∀ y ∈ xs, ¬ R x y ∧ ¬ R y x) : xs = [x] := by
  cases xs with
  | nil => cases hmem
  | cons y ys =>
    have hfst := (pairwise_cons.1 hpw).1
    rcases mem_cons.1 hmem with rfl | hrs
    · cases ys with
      | nil => rfl
      | cons z zs =>
        exact absurd (hfst z mem_cons_self) (hnot z (mem_cons_of_mem x mem_cons_self)).1
    · exact absurd (hfst x hrs) (hnot y mem_cons_self).2

open Classical in
/-- Any two functions of a set differ for calls, and a call with exactly the parameters of one
function selects it, if in a call through an object no function of the other kind has the same
parameters apart from `this`. -/
theorem overloaded_call_resolved (program : CallArguments.Program)
    (ensureTypeComplete : LangType → Bool) (functions functionsSet : List FunctionVariable)
    (hset : functions.foldlM applyOverloadedFunction [] = some functionsSet) :
    functionsSet.Pairwise Distinguishable ∧
    ∀ (actualArgs : List FunctionParam) (firstActualArgIsThis enableTypeConversions : Bool),
      ∀ function_ ∈ functionsSet, TakesExactly actualArgs firstActualArgIsThis function_ →
      (firstActualArgIsThis = true → ∀ other ∈ functionsSet,
        isMatched program ensureTypeComplete enableTypeConversions actualArgs firstActualArgIsThis
          other = true → other.isThisCall ≠ function_.isThisCall →
        ¬ SameParams other.paramsApartFromThis function_.paramsApartFromThis) →
      selectOverloadedFunction program actualArgs firstActualArgIsThis
        (fetchMatchedOverloadedFunctions program ensureTypeComplete enableTypeConversions actualArgs
          firstActualArgIsThis functionsSet) = some (.function function_) := by
  have hpairwise := pairwise_of_applies functions .nil hset
  refine ⟨hpairwise, fun actualArgs firstActualArgIsThis enableTypeConversions function_ hmem hexact
    hkinds => ?_⟩
  rw [selectOverloadedFunction_eq, Comparisons.select, Comparisons.onlyOf_eq_some]
  have hsame : ∀ other ∈ functionsSet, isMatched program ensureTypeComplete enableTypeConversions
      actualArgs firstActualArgIsThis other = true →
      Remains program ensureTypeComplete enableTypeConversions actualArgs firstActualArgIsThis
        functionsSet other →
      SameParams other.type.params function_.type.params := by
    intro other hotherMem hother hsurvives
    refine hexact.sameParams_of_survives hother hmem hsurvives fun hthis => ?_
    subst hthis
    by_contra hne
    exact hkinds rfl other hotherMem hother hne
      (hexact.sameParamsApartFromThis hother hmem hsurvives)
  have honly : (functionsSet.filter (isMatched program ensureTypeComplete enableTypeConversions
      actualArgs firstActualArgIsThis)).filter (fun other =>
        decide (Remains program ensureTypeComplete enableTypeConversions actualArgs
          firstActualArgIsThis functionsSet other)) = [function_] := by
    refine eq_singleton_of_pairwise ((hpairwise.filter _).filter _) ?_ fun other hother => ?_
    · exact mem_filter.2 ⟨mem_filter.2 ⟨hmem, hexact.matched⟩, decide_eq_true hexact.survives⟩
    · obtain ⟨hfetched, hsurvives⟩ := mem_filter.1 hother
      obtain ⟨hotherMem, hotherMatched⟩ := mem_filter.1 hfetched
      have hparams := hsame other hotherMem hotherMatched (of_decide_eq_true hsurvives)
      exact ⟨not_not_intro hparams.symm, not_not_intro hparams⟩
  conv_lhs => rw [fetchMatchedOverloadedFunctions]
  rw [filter_map]
  exact congrArg (map function) honly

/-- `fn Bar( P &imut x );` -/
def staticBar : FunctionVariable where
  type := .mk [parentParam .referenceImut] (.mk invalidType .value) false .default_ [] [] []
  isThisCall := false
  isConstructor := false
  isConversionConstructor := false

/-- `fn Bar( imut this, P &imut x );` -/
def methodBar : FunctionVariable where
  type := .mk [parentParam .referenceImut, parentParam .referenceImut] (.mk invalidType .value)
    false .default_ [] [] []
  isThisCall := true
  isConstructor := false
  isConversionConstructor := false

/-- `fn Bar( imut this, P &mut x );` -/
def mutableBar : FunctionVariable where
  type := .mk [parentParam .referenceImut, parentParam .referenceMut] (.mk invalidType .value)
    false .default_ [] [] []
  isThisCall := true
  isConstructor := false
  isConversionConstructor := false

/-- The arguments are exactly those of the method, and the call is ambiguous. -/
theorem overloaded_call_ambiguous_static :
    [staticBar, methodBar].foldlM applyOverloadedFunction [] = some [staticBar, methodBar] ∧
      methodBar.type.params = [parentParam .referenceImut, parentParam .referenceImut] ∧
      selectOverloadedFunction derivedProgram
        [parentParam .referenceImut, parentParam .referenceImut] true
        (fetchMatchedOverloadedFunctions derivedProgram (fun _ => true) true
          [parentParam .referenceImut, parentParam .referenceImut] true
          [staticBar, methodBar]) = none := by
  refine ⟨rfl, rfl, ?_⟩
  have hmatched : [staticBar, methodBar].filter (isMatched derivedProgram (fun _ => true) true
      [parentParam .referenceImut, parentParam .referenceImut] true) = [staticBar, methodBar] := by
    refine filter_eq_self.2 ?_
    decide +kernel
  have hflags : (range 2).foldl (checkArg derivedProgram
      [parentParam .referenceImut, parentParam .referenceImut] true
      [.function staticBar, .function methodBar]) [true, true] = [true, true] := by
    decide +kernel
  rw [fetchMatchedOverloadedFunctions, hmatched]
  exact congrArg (fun flags => selectFlagged none (zip _ flags)) hflags

theorem overloaded_call_resolved_mutable : selectOverloadedFunction derivedProgram
    [parentParam .referenceImut, parentParam .referenceMut] true
    (fetchMatchedOverloadedFunctions derivedProgram (fun _ => true) true
      [parentParam .referenceImut, parentParam .referenceMut] true [staticBar, mutableBar]) =
    some (.function mutableBar) := by
  have hresolved := overloaded_call_resolved derivedProgram (fun _ => true) [staticBar, mutableBar]
    [staticBar, mutableBar] rfl
  refine hresolved.2 [parentParam .referenceImut, parentParam .referenceMut] true true mutableBar
    (mem_cons_of_mem staticBar mem_cons_self) (SameParams.refl _)
    fun _ other hother _ hkind hsame => ?_
  rcases mem_cons.1 hother with rfl | hmutable
  · have hclass := (hsame.same 0 _ _ rfl rfl).overloadingClass
    exact absurd hclass (by decide)
  · rw [mem_singleton.1 hmutable] at hkind
    exact hkind rfl

end USprache.CodeBuilder.WithArgs.OverloadingResolution
