import USprache.CodeBuilder.Types

/-!
# The type of a coroutine function

A coroutine function returns a value of a coroutine type.  Each reference parameter and each
reference tag of a value parameter becomes an inner reference tag of that type, and the
reference notation of the function is rewritten in terms of these tags.
-/

namespace USprache.CodeBuilder

inductive CoroutineError where
  | innerReferenceTagCountMismatch (expected given : Nat)
  | referenceTagOutOfRange (tag : UInt8) (type : LangType) (tagCount : Nat)
  | coroutineNonSyncRequired
  /-- The depth limit, and the parameter of this number and type it is about. -/
  | referenceIndirectionDepthExceeded (depth : Nat) (param : Nat) (type : LangType)
  | referencingValueParam (param : UInt8)

section Checks

variable (types : BuiltTypes)

/-- `check_param_reference` of `CheckFunctionReferencesNotationInnerReferences`. -/
def checkParamReference (params : List FunctionParam) (paramReference : ParamReference) :
    List CoroutineError :=
  if paramReference.second = paramReferenceNumber then []
  else match params[paramReference.first.toNat]? with
    | none => []
    | some param =>
      if paramReference.second.toNat ≥ types.referenceTagCount param.type then
        [.referenceTagOutOfRange paramReference.second param.type
          (types.referenceTagCount param.type)]
      else []

def checkFunctionReferencesNotationInnerReferences (functionType : FunctionType) :
    List CoroutineError :=
  let check := checkParamReference types functionType.params
  let returnTypeTagCount := types.referenceTagCount functionType.returned.type
  functionType.referencesPollution.flatMap (fun p => check p.dst ++ check p.src) ++
    functionType.returnReferences.flatMap check ++
    functionType.returnInnerReferences.flatten.flatMap check ++
    if functionType.returnInnerReferences.length ≠ 0 ∧
        functionType.returnInnerReferences.length ≠ returnTypeTagCount then
      [.innerReferenceTagCountMismatch returnTypeTagCount functionType.returnInnerReferences.length]
    else []

def performCoroutineFunctionReferenceNotationChecks (functionType : FunctionType) :
    List CoroutineError :=
  let returnTypeTagCount := types.referenceTagCount functionType.returned.type
  -- For coroutines use strict criteria - require setting notation with exact size.
  (if functionType.returnInnerReferences.length ≠ returnTypeTagCount then
    [.innerReferenceTagCountMismatch returnTypeTagCount functionType.returnInnerReferences.length]
  else []) ++ checkFunctionReferencesNotationInnerReferences types functionType

end Checks

section Collecting

variable (types : BuiltTypes)

structure CollectedTags where
  paramToFirstInnerReferenceTag : List Nat := []
  innerReferences : List InnerReferenceKind := []
  coroutineReturnInnerReferences : List ReturnReferences := []
  errors : List CoroutineError := []

def collectParam (paramIndex : Nat) (param : FunctionParam) (collected : CollectedTags) :
    CollectedTags :=
  let collected := { collected with
    paramToFirstInnerReferenceTag := collected.paramToFirstInnerReferenceTag ++
      [collected.innerReferences.length] }
  if types.ensureTypeComplete param.type = false then collected
  else
    let referenceTagCount := types.referenceTagCount param.type
    match param.valueType with
    | .value =>
      { collected with
        -- We support value params with references inside, but no second order inner references.
        errors := collected.errors ++
          if types.getReferenceIndirectionDepth param.type > 1 then
            [.referenceIndirectionDepthExceeded 1 paramIndex param.type]
          else []
        innerReferences := collected.innerReferences ++
          (List.range referenceTagCount).map (types.getInnerReferenceKind param.type)
        coroutineReturnInnerReferences := collected.coroutineReturnInnerReferences ++
          (List.range referenceTagCount).map fun i => [⟨paramIndex.toUInt8, i.toUInt8⟩] }
    | valueType =>
      { collected with
        -- We support reference params, but with no references inside.
        errors := collected.errors ++
          if referenceTagCount > 0 then
            [.referenceIndirectionDepthExceeded 1 paramIndex param.type]
          else []
        innerReferences := collected.innerReferences ++
          [if valueType = .referenceMut then .mut_ else .imut]
        coroutineReturnInnerReferences := collected.coroutineReturnInnerReferences ++
          [[⟨paramIndex.toUInt8, paramReferenceNumber⟩]] }

/-- The loop over the parameters, from the one of this index on. -/
def collectParams : Nat → List FunctionParam → CollectedTags → CollectedTags
  | _, [], collected => collected
  | paramIndex, param :: params, collected =>
    collectParams (paramIndex + 1) params (collectParam types paramIndex param collected)

end Collecting

section Translation

variable (params : List FunctionParam) (paramToFirstInnerReferenceTag : List Nat)

def outReferenceOfParam (param : FunctionParam) (first : UInt8) :
    ParamReference × List CoroutineError :=
  if param.valueType = .value then (⟨0, 0⟩, [.referencingValueParam first])
  else (⟨0, (paramToFirstInnerReferenceTag.getD first.toNat 0).toUInt8⟩, [])

def translateReturnReference (paramReference : ParamReference) :
    List ParamReference × List CoroutineError :=
  match params[paramReference.first.toNat]? with
  | none => ([], []) -- Out of range errors should be reported earlier.
  | some param =>
    if paramReference.second = paramReferenceNumber then
      let out := outReferenceOfParam paramToFirstInnerReferenceTag param paramReference.first
      ([out.1], out.2)
    else
      ([⟨0, (paramToFirstInnerReferenceTag.getD paramReference.first.toNat 0 +
        paramReference.second.toNat).toUInt8⟩], [])

/-- A step of the loop over a list of `return_inner_references`.  What is added to the first
tag of the parameter here is not the tag of the reference, but `out_reference.second`, which
is still zero. -/
def translateReturnInnerReference (paramReference : ParamReference) :
    List ParamReference × List CoroutineError :=
  match params[paramReference.first.toNat]? with
  | none => ([], []) -- Out of range errors should be reported earlier.
  | some param =>
    let outReference : ParamReference := ⟨0, 0⟩
    if paramReference.second = paramReferenceNumber then
      let out := outReferenceOfParam paramToFirstInnerReferenceTag param paramReference.first
      ([out.1], out.2)
    else
      ([⟨0, (paramToFirstInnerReferenceTag.getD paramReference.first.toNat 0 +
        outReference.second.toNat).toUInt8⟩], [])

end Translation

structure TransformedCoroutine where
  functionType : FunctionType
  description : CoroutineTypeDescription
  errors : List CoroutineError

/-- The check of the parameters and the result of a coroutine not marked as `non_sync`. -/
def nonSyncErrors (types : BuiltTypes) (functionType : FunctionType) (nonSync : Bool) :
    List CoroutineError :=
  if nonSync then []
  else (functionType.returned :: functionType.params).flatMap fun param =>
    if types.ensureTypeComplete param.type && types.getTypeNonSync param.type then
      [.coroutineNonSyncRequired]
    else []

def transformCoroutineFunctionType (types : BuiltTypes) (functionType : FunctionType)
    (kind : CoroutineKind) (nonSync : Bool) : TransformedCoroutine :=
  let .mk params returned isUnsafe callingConvention returnReferences returnInnerReferences
    referencesPollution := functionType
  let collected := collectParams types 0 params {}
  let firstTags := collected.paramToFirstInnerReferenceTag
  let outReferences := returnReferences.map (translateReturnReference params firstTags)
  let outInnerReferences := returnInnerReferences.map fun references =>
    references.map (translateReturnInnerReference params firstTags)
  let description := .mk kind returned
    (normalizeParamReferencesList (outReferences.flatMap (fun out => out.1)))
    (outInnerReferences.map fun outs =>
      normalizeParamReferencesList (outs.flatMap (fun out => out.1)))
    collected.innerReferences nonSync
  { functionType := .mk params (.mk (.classType (.coroutine description)) .value) isUnsafe
      callingConvention [] collected.coroutineReturnInnerReferences referencesPollution
    description := description
    errors := nonSyncErrors types functionType nonSync ++ collected.errors ++
      outReferences.flatMap (fun out => out.2) ++
      outInnerReferences.flatMap (fun outs => outs.flatMap (fun out => out.2)) }

/-- The loop, with the node of each parameter and the nodes of its reference tags. -/
def getCoroutineInnerReferenceForParamNodeFrom {V : Type} [DecidableEq V] (types : BuiltTypes)
    (node : V) : Nat → List (FunctionParam × V × List V) → Option ParamReference
  | _, [] => none
  | index, (param, argNode, tagNodes) :: args =>
    if param.valueType = .value then
      match tagNodes.findIdx? (fun tagNode => decide (node = tagNode)) with
      | some j => some ⟨0, (index + j).toUInt8⟩
      | none => getCoroutineInnerReferenceForParamNodeFrom types node
        (index + types.referenceTagCount param.type) args
    else if node = argNode then some ⟨0, index.toUInt8⟩
    else getCoroutineInnerReferenceForParamNodeFrom types node (index + 1) args

def getCoroutineInnerReferenceForParamNode {V : Type} [DecidableEq V] (types : BuiltTypes)
    (args : List (FunctionParam × V × List V)) (node : V) : Option ParamReference :=
  getCoroutineInnerReferenceForParamNodeFrom types node 0 args

/-- The condition under which `CheckAsyncReturnReferenceIsAllowed` reports no error for an
accessible node.  The binary search finds what is in the list, since the list is sorted. -/
def asyncReturnReferenceIsAllowed {V : Type} [DecidableEq V] (types : BuiltTypes)
    (args : List (FunctionParam × V × List V)) (description : CoroutineTypeDescription)
    (node : V) : Bool :=
  match getCoroutineInnerReferenceForParamNode types args node with
  | none => false
  | some reference => decide (reference ∈ description.returnReferences)

/-- The same of `CheckAsyncReturnInnerReferencesAreAllowed`, for a node accessible through
the inner reference tag `i` of the returned value. -/
def asyncReturnInnerReferenceIsAllowed {V : Type} [DecidableEq V] (types : BuiltTypes)
    (args : List (FunctionParam × V × List V)) (description : CoroutineTypeDescription)
    (i : Nat) (node : V) : Bool :=
  match getCoroutineInnerReferenceForParamNode types args node,
      description.returnInnerReferences[i]? with
  | some reference, some references => decide (reference ∈ references)
  | _, _ => false

end USprache.CodeBuilder
