import USprache.CodeBuilder.TypesWithArgs

/-!
# Parameters of template signatures

What a template signature asks of an argument: a known thing, a template parameter, or a type
built of them.
-/

namespace USprache.CodeBuilder.WithArgs

def isByte : FundamentalType → Bool
  | .byte8_ | .byte16_ | .byte32_ | .byte64_ | .byte128_ => true
  | _ => false

mutual

def isValidForTemplateVariableArgument : LangType → Bool
  | .fundamental type => type.isInteger || type.isChar || isByte type || decide (type = .bool_)
  | .enumType .. => true
  | .array elementType _ => isValidForTemplateVariableArgument elementType
  | .tuple elementTypes => allValidForTemplateVariableArgument elementTypes
  | _ => false

def allValidForTemplateVariableArgument : List LangType → Bool
  | [] => true
  | type :: types =>
    isValidForTemplateVariableArgument type && allValidForTemplateVariableArgument types

end

mutual

inductive SignatureParam where
  | type (type : LangType)
  | variable_ (type : LangType) (constexprValue : Constant)
  | typeTemplate (typeTemplate : TypeTemplate)
  | templateParam (index kindIndex : Nat)
  | array (elementCount elementType : SignatureParam)
  | tuple (elementTypes : List SignatureParam)
  | rawPointer (elementType : SignatureParam)
  | function (returnType : SignatureParam) (returnValueType : ValueType) (isUnsafe : Bool)
    (callingConvention : CallingConvention) (params : List FunctionSignatureParam)
  | coroutine (kind : CoroutineKind) (returnType : SignatureParam) (returnValueType : ValueType)
    (returnReferences : List ParamReference) (returnInnerReferences : List (List ParamReference))
    (innerReferences : List InnerReferenceKind) (nonSync : Bool)
  | specializedTemplate (typeTemplates params : List SignatureParam)

inductive FunctionSignatureParam where
  | mk (type : SignatureParam) (valueType : ValueType)

end

mutual

def SignatureParam.beq : SignatureParam → SignatureParam → Bool
  | .type a, .type b => decide (a = b)
  | .variable_ a v, .variable_ b w => decide (a = b ∧ v = w)
  | .typeTemplate a, .typeTemplate b => decide (a = b)
  | .templateParam i k, .templateParam j l => decide (i = j ∧ k = l)
  | .array n a, .array m b => SignatureParam.beq a b && SignatureParam.beq n m
  | .tuple as, .tuple bs => beqSignatureParams as bs
  | .rawPointer a, .rawPointer b => SignatureParam.beq a b
  | .function r v u cc ps, .function r' v' u' cc' ps' =>
    beqFunctionSignatureParams ps ps' && SignatureParam.beq r r' &&
      decide (v = v' ∧ u = u' ∧ cc = cc')
  | .coroutine k r v rr ri ir n, .coroutine k' r' v' rr' ri' ir' n' =>
    SignatureParam.beq r r' &&
      decide (k = k' ∧ v = v' ∧ rr = rr' ∧ ri = ri' ∧ ir = ir' ∧ n = n')
  | .specializedTemplate as bs, .specializedTemplate as' bs' =>
    beqSignatureParams as as' && beqSignatureParams bs bs'
  | _, _ => false

def FunctionSignatureParam.beq : FunctionSignatureParam → FunctionSignatureParam → Bool
  | .mk a v, .mk b w => SignatureParam.beq a b && decide (v = w)

def beqSignatureParams : List SignatureParam → List SignatureParam → Bool
  | [], [] => true
  | a :: as, b :: bs => SignatureParam.beq a b && beqSignatureParams as bs
  | _, _ => false

def beqFunctionSignatureParams : List FunctionSignatureParam → List FunctionSignatureParam → Bool
  | [], [] => true
  | a :: as, b :: bs => FunctionSignatureParam.beq a b && beqFunctionSignatureParams as bs
  | _, _ => false

end

mutual

theorem SignatureParam.beq_iff : ∀ a b : SignatureParam, a.beq b = true ↔ a = b
  | .type a, b | .variable_ a v, b | .typeTemplate a, b | .templateParam i k, b => by
    cases b <;> simp [SignatureParam.beq]
  | .array n a, b => by
    cases b <;> simp [SignatureParam.beq, SignatureParam.beq_iff n, SignatureParam.beq_iff a,
      and_comm]
  | .tuple as, b => by cases b <;> simp [SignatureParam.beq, beqSignatureParams_iff as]
  | .rawPointer a, b => by cases b <;> simp [SignatureParam.beq, SignatureParam.beq_iff a]
  | .function r v u cc ps, b => by
    cases b
    case function r' v' u' cc' ps' =>
      simp only [SignatureParam.beq, beqFunctionSignatureParams_iff ps, SignatureParam.beq_iff r,
        Bool.and_eq_true, decide_eq_true_eq, SignatureParam.function.injEq]
      tauto
    all_goals simp [SignatureParam.beq]
  | .coroutine k r v rr ri ir n, b => by
    cases b
    case coroutine k' r' v' rr' ri' ir' n' =>
      simp only [SignatureParam.beq, SignatureParam.beq_iff r, Bool.and_eq_true,
        decide_eq_true_eq, SignatureParam.coroutine.injEq]
      exact and_left_comm
    all_goals simp [SignatureParam.beq]
  | .specializedTemplate as bs, b => by
    cases b <;> simp [SignatureParam.beq, beqSignatureParams_iff as, beqSignatureParams_iff bs]

theorem FunctionSignatureParam.beq_iff : ∀ a b : FunctionSignatureParam, a.beq b = true ↔ a = b
  | .mk a v, .mk b w => by simp [FunctionSignatureParam.beq, SignatureParam.beq_iff a]

theorem beqSignatureParams_iff :
    ∀ as bs : List SignatureParam, beqSignatureParams as bs = true ↔ as = bs
  | [], bs => by cases bs <;> simp [beqSignatureParams]
  | a :: as, bs => by
    cases bs <;> simp [beqSignatureParams, SignatureParam.beq_iff a, beqSignatureParams_iff as]

theorem beqFunctionSignatureParams_iff :
    ∀ as bs : List FunctionSignatureParam, beqFunctionSignatureParams as bs = true ↔ as = bs
  | [], bs => by cases bs <;> simp [beqFunctionSignatureParams]
  | a :: as, bs => by
    cases bs <;> simp [beqFunctionSignatureParams, FunctionSignatureParam.beq_iff a,
      beqFunctionSignatureParams_iff as]

end

instance : DecidableEq SignatureParam := fun a b =>
  decidable_of_iff _ (SignatureParam.beq_iff a b)

namespace SignatureParam

def isType : SignatureParam → Bool
  | type _ => true
  | _ => false

def isVariable : SignatureParam → Bool
  | variable_ _ _ => true
  | _ => false

def isKnown : SignatureParam → Bool
  | type _ => true
  | variable_ _ _ => true
  | typeTemplate _ => true
  | _ => false

end SignatureParam

section Mapping

variable (mapping : List SignatureParam)

mutual

def mapTemplateParamsToSignatureParams : SignatureParam → SignatureParam
  | .type type => .type type
  | .variable_ type constexprValue => .variable_ type constexprValue
  | .typeTemplate typeTemplate => .typeTemplate typeTemplate
  -- The index is asserted to be less than the size.
  | .templateParam index kindIndex => mapping.getD index (.templateParam index kindIndex)
  | .array elementCount elementType =>
    .array (mapTemplateParamsToSignatureParams elementCount)
      (mapTemplateParamsToSignatureParams elementType)
  | .tuple elementTypes => .tuple (mapParams elementTypes)
  | .rawPointer elementType => .rawPointer (mapTemplateParamsToSignatureParams elementType)
  | .function returnType returnValueType isUnsafe callingConvention params =>
    .function (mapTemplateParamsToSignatureParams returnType) returnValueType isUnsafe
      callingConvention (mapFunctionParams params)
  | .coroutine kind returnType returnValueType returnReferences returnInnerReferences
      innerReferences nonSync =>
    .coroutine kind (mapTemplateParamsToSignatureParams returnType) returnValueType
      returnReferences returnInnerReferences innerReferences nonSync
  | .specializedTemplate typeTemplates params =>
    .specializedTemplate (mapParams typeTemplates) (mapParams params)

def mapParams : List SignatureParam → List SignatureParam
  | [] => []
  | param :: params => mapTemplateParamsToSignatureParams param :: mapParams params

def mapFunctionParams : List FunctionSignatureParam → List FunctionSignatureParam
  | [] => []
  | .mk type valueType :: params =>
    .mk (mapTemplateParamsToSignatureParams type) valueType :: mapFunctionParams params

end

end Mapping

section Indices

variable (count : Nat)

mutual

def SignatureParam.IndicesBelow : SignatureParam → Prop
  | .type _ => True
  | .variable_ _ _ => True
  | .typeTemplate _ => True
  | .templateParam index _ => index < count
  | .array elementCount elementType =>
    SignatureParam.IndicesBelow elementCount ∧ SignatureParam.IndicesBelow elementType
  | .tuple elementTypes => IndicesBelowAll elementTypes
  | .rawPointer elementType => SignatureParam.IndicesBelow elementType
  | .function returnType _ _ _ params =>
    SignatureParam.IndicesBelow returnType ∧ FunctionIndicesBelow params
  | .coroutine _ returnType _ _ _ _ _ => SignatureParam.IndicesBelow returnType
  | .specializedTemplate typeTemplates params =>
    IndicesBelowAll typeTemplates ∧ IndicesBelowAll params

def IndicesBelowAll : List SignatureParam → Prop
  | [] => True
  | param :: params => SignatureParam.IndicesBelow param ∧ IndicesBelowAll params

def FunctionIndicesBelow : List FunctionSignatureParam → Prop
  | [] => True
  | .mk type _ :: params => SignatureParam.IndicesBelow type ∧ FunctionIndicesBelow params

end

end Indices

/-- The count of an array, which is a constant of `size_type`. -/
def elementCountOf : TemplateArg → Option UInt64
  | .variable_ (.fundamental .size_type_) [value] => some (UInt64.ofNat value.bits.toNat)
  | _ => none

def typeOf : TemplateArg → Option LangType
  | .type type => some type
  | _ => none

section Denotation

variable (genTemplateType : List TemplateArg → List TemplateArg → Option LangType)
  (s : Nat → Option TemplateArg)

mutual

/-- The argument that a parameter describes, with the arguments of the template parameters.  What
the set of type templates makes of arguments is given by `genTemplateType`. -/
def denote : SignatureParam → Option TemplateArg
  | .type type => some (.type type)
  | .variable_ type constexprValue => some (.variable_ type constexprValue)
  | .typeTemplate typeTemplate => some (.typeTemplate typeTemplate)
  | .templateParam index _ => s index
  | .array elementCount elementType =>
    ((denote elementCount).bind elementCountOf).bind fun count =>
      ((denote elementType).bind typeOf).map fun type => .type (.array type count)
  | .tuple elementTypes => (denoteTypes elementTypes).map fun types => .type (.tuple types)
  | .rawPointer elementType =>
    ((denote elementType).bind typeOf).map fun type => .type (.rawPointer type)
  | .function returnType returnValueType isUnsafe callingConvention params =>
    ((denote returnType).bind typeOf).bind fun type =>
      (denoteFunctionParams params).map fun params =>
        .type (.functionPointer
          (.mk params (.mk type returnValueType) isUnsafe callingConvention [] [] []))
  | .coroutine kind returnType returnValueType returnReferences returnInnerReferences
      innerReferences nonSync =>
    ((denote returnType).bind typeOf).map fun type =>
      .type (.classType (.coroutine (.mk kind (.mk type returnValueType) returnReferences
        returnInnerReferences innerReferences nonSync)))
  | .specializedTemplate typeTemplates params =>
    (denoteArgs typeTemplates).bind fun typeTemplates =>
      (denoteArgs params).bind fun args => (genTemplateType typeTemplates args).map .type

def denoteArgs : List SignatureParam → Option (List TemplateArg)
  | [] => some []
  | param :: params =>
    (denote param).bind fun arg => (denoteArgs params).map fun args => arg :: args

def denoteTypes : List SignatureParam → Option (List LangType)
  | [] => some []
  | param :: params =>
    ((denote param).bind typeOf).bind fun type =>
      (denoteTypes params).map fun types => type :: types

def denoteFunctionParams : List FunctionSignatureParam → Option (List FunctionParam)
  | [] => some []
  | .mk type valueType :: params =>
    ((denote type).bind typeOf).bind fun type =>
      (denoteFunctionParams params).map fun params => .mk type valueType :: params

end

end Denotation

section Substitution

variable {genTemplateType : List TemplateArg → List TemplateArg → Option LangType}
  {mapping : List SignatureParam} {s t : Nat → Option TemplateArg}

mutual

theorem denote_map (h : ∀ i param, mapping[i]? = some param → t i = denote genTemplateType s param) :
    ∀ param, param.IndicesBelow mapping.length →
      denote genTemplateType s (mapTemplateParamsToSignatureParams mapping param) =
        denote genTemplateType t param
  | .type _, _ => rfl
  | .variable_ _ _, _ => rfl
  | .typeTemplate _, _ => rfl
  | .templateParam index _, hb => by
    have hix : mapping[index]? = some mapping[index] := List.getElem?_eq_getElem hb
    rw [mapTemplateParamsToSignatureParams, List.getD_eq_getElem?_getD, hix]
    exact (h index _ hix).symm
  | .array elementCount elementType, hb => by
    rw [mapTemplateParamsToSignatureParams, denote, denote, denote_map h elementCount hb.1,
      denote_map h elementType hb.2]
  | .tuple elementTypes, hb => by
    rw [mapTemplateParamsToSignatureParams, denote, denote, denoteTypes_map h elementTypes hb]
  | .rawPointer elementType, hb => by
    rw [mapTemplateParamsToSignatureParams, denote, denote, denote_map h elementType hb]
  | .function returnType _ _ _ params, hb => by
    rw [mapTemplateParamsToSignatureParams, denote, denote, denote_map h returnType hb.1,
      denoteFunctionParams_map h params hb.2]
  | .coroutine _ returnType _ _ _ _ _, hb => by
    rw [mapTemplateParamsToSignatureParams, denote, denote, denote_map h returnType hb]
  | .specializedTemplate typeTemplates params, hb => by
    rw [mapTemplateParamsToSignatureParams, denote, denote,
      denoteArgs_map h typeTemplates hb.1, denoteArgs_map h params hb.2]

theorem denoteArgs_map (h : ∀ i param, mapping[i]? = some param → t i = denote genTemplateType s param) :
    ∀ params, IndicesBelowAll mapping.length params →
      denoteArgs genTemplateType s (mapParams mapping params) = denoteArgs genTemplateType t params
  | [], _ => rfl
  | param :: params, hb => by
    rw [mapParams, denoteArgs, denoteArgs, denote_map h param hb.1, denoteArgs_map h params hb.2]

theorem denoteTypes_map (h : ∀ i param, mapping[i]? = some param → t i = denote genTemplateType s param) :
    ∀ params, IndicesBelowAll mapping.length params →
      denoteTypes genTemplateType s (mapParams mapping params) = denoteTypes genTemplateType t params
  | [], _ => rfl
  | param :: params, hb => by
    rw [mapParams, denoteTypes, denoteTypes, denote_map h param hb.1, denoteTypes_map h params hb.2]

theorem denoteFunctionParams_map
    (h : ∀ i param, mapping[i]? = some param → t i = denote genTemplateType s param) :
    ∀ params, FunctionIndicesBelow mapping.length params →
      denoteFunctionParams genTemplateType s (mapFunctionParams mapping params) =
        denoteFunctionParams genTemplateType t params
  | [], _ => rfl
  | .mk type _ :: params, hb => by
    rw [mapFunctionParams, denoteFunctionParams, denoteFunctionParams, denote_map h type hb.1,
      denoteFunctionParams_map h params hb.2]

end

end Substitution

end USprache.CodeBuilder.WithArgs
