import USprache.CodeBuilder.Types

/-!
# Types with template arguments

The same types as in `Types`, where the arguments of a class template may also be values and
type templates, and an enum has an underlying type.
-/

namespace USprache.CodeBuilder.WithArgs

open LexSynt

structure APInt where
  bitWidth : Nat
  bits : BitVec bitWidth
deriving DecidableEq

/-- A constant of a known type: the integers it consists of, one after another. -/
abbrev Constant := List APInt

mutual

inductive LangType where
  | fundamental (type : FundamentalType)
  | array (elementType : LangType) (elementCount : UInt64)
  | rawPointer (elementType : LangType)
  | classType (class_ : Class)
  | enumType (parent : NamesScope) (name : Text) (underlyingType : FundamentalType)
  | functionPointer (functionType : FunctionType)
  | tuple (elementTypes : List LangType)

inductive FunctionParam where
  | mk (type : LangType) (valueType : ValueType)

inductive FunctionType where
  | mk (params : List FunctionParam) (returned : FunctionParam) (isUnsafe : Bool)
    (callingConvention : CallingConvention) (returnReferences : List ParamReference)
    (returnInnerReferences : List (List ParamReference))
    (referencesPollution : List ReferencePollution)

inductive CoroutineTypeDescription where
  | mk (kind : CoroutineKind) (returned : FunctionParam)
    (returnReferences : List ParamReference) (returnInnerReferences : List (List ParamReference))
    (innerReferences : List InnerReferenceKind) (nonSync : Bool)

/-- A class by its `generated_class_data`: declared, made from a class template, or the class
of a coroutine. -/
inductive Class where
  | declared (parent : NamesScope) (name : Text)
  | ofTemplate (classTemplate : TypeTemplate) (signatureArgs : List TemplateArg)
  | coroutine (description : CoroutineTypeDescription)

/-- A type template by its scope, its name, and its index in the set of that name. -/
inductive TypeTemplate where
  | mk (parent : NamesScope) (name : Text) (index : Nat)

inductive TemplateArg where
  | type (type : LangType)
  | variable_ (type : LangType) (constexprValue : Constant)
  | typeTemplate (typeTemplate : TypeTemplate)

inductive NamesScope where
  | root
  | namespace_ (parent : NamesScope) (name : Text)
  | members (class_ : Class)

end

def FunctionParam.type : FunctionParam → LangType
  | mk type _ => type

def FunctionParam.valueType : FunctionParam → ValueType
  | mk _ valueType => valueType

namespace FunctionType

def params : FunctionType → List FunctionParam
  | mk params _ _ _ _ _ _ => params

def returned : FunctionType → FunctionParam
  | mk _ returned _ _ _ _ _ => returned

def isUnsafe : FunctionType → Bool
  | mk _ _ isUnsafe _ _ _ _ => isUnsafe

def callingConvention : FunctionType → CallingConvention
  | mk _ _ _ callingConvention _ _ _ => callingConvention

def returnReferences : FunctionType → List ParamReference
  | mk _ _ _ _ returnReferences _ _ => returnReferences

def returnInnerReferences : FunctionType → List (List ParamReference)
  | mk _ _ _ _ _ returnInnerReferences _ => returnInnerReferences

def referencesPollution : FunctionType → List ReferencePollution
  | mk _ _ _ _ _ _ referencesPollution => referencesPollution

end FunctionType

mutual

def LangType.beq : LangType → LangType → Bool
  | .fundamental a, .fundamental b => decide (a = b)
  | .array a n, .array b m => LangType.beq a b && decide (n = m)
  | .rawPointer a, .rawPointer b => LangType.beq a b
  | .classType a, .classType b => Class.beq a b
  | .enumType a n u, .enumType b m v => NamesScope.beq a b && decide (n = m ∧ u = v)
  | .functionPointer a, .functionPointer b => FunctionType.beq a b
  | .tuple a, .tuple b => beqTypes a b
  | _, _ => false

def FunctionParam.beq : FunctionParam → FunctionParam → Bool
  | .mk a v, .mk b w => LangType.beq a b && decide (v = w)

def FunctionType.beq : FunctionType → FunctionType → Bool
  | .mk p r u cc rr ri rp, .mk p' r' u' cc' rr' ri' rp' =>
    beqParams p p' && FunctionParam.beq r r' &&
      decide (u = u' ∧ cc = cc' ∧ rr = rr' ∧ ri = ri' ∧ rp = rp')

def CoroutineTypeDescription.beq : CoroutineTypeDescription → CoroutineTypeDescription → Bool
  | .mk k r rr ri ir n, .mk k' r' rr' ri' ir' n' =>
    FunctionParam.beq r r' && decide (k = k' ∧ rr = rr' ∧ ri = ri' ∧ ir = ir' ∧ n = n')

def Class.beq : Class → Class → Bool
  | .declared a n, .declared b m => NamesScope.beq a b && decide (n = m)
  | .ofTemplate a as, .ofTemplate b bs => TypeTemplate.beq a b && beqArgs as bs
  | .coroutine a, .coroutine b => CoroutineTypeDescription.beq a b
  | _, _ => false

def TypeTemplate.beq : TypeTemplate → TypeTemplate → Bool
  | .mk a n i, .mk b m j => NamesScope.beq a b && decide (n = m ∧ i = j)

def TemplateArg.beq : TemplateArg → TemplateArg → Bool
  | .type a, .type b => LangType.beq a b
  | .variable_ a v, .variable_ b w => LangType.beq a b && decide (v = w)
  | .typeTemplate a, .typeTemplate b => TypeTemplate.beq a b
  | _, _ => false

def NamesScope.beq : NamesScope → NamesScope → Bool
  | .root, .root => true
  | .namespace_ a n, .namespace_ b m => NamesScope.beq a b && decide (n = m)
  | .members a, .members b => Class.beq a b
  | _, _ => false

def beqTypes : List LangType → List LangType → Bool
  | [], [] => true
  | a :: as, b :: bs => LangType.beq a b && beqTypes as bs
  | _, _ => false

def beqParams : List FunctionParam → List FunctionParam → Bool
  | [], [] => true
  | a :: as, b :: bs => FunctionParam.beq a b && beqParams as bs
  | _, _ => false

def beqArgs : List TemplateArg → List TemplateArg → Bool
  | [], [] => true
  | a :: as, b :: bs => TemplateArg.beq a b && beqArgs as bs
  | _, _ => false

end

mutual

theorem LangType.beq_iff : ∀ a b : LangType, a.beq b = true ↔ a = b
  | .fundamental a, b => by cases b <;> simp [LangType.beq]
  | .array a n, b | .rawPointer a, b => by cases b <;> simp [LangType.beq, LangType.beq_iff a]
  | .classType a, b => by cases b <;> simp [LangType.beq, Class.beq_iff a]
  | .enumType a n u, b => by cases b <;> simp [LangType.beq, NamesScope.beq_iff a]
  | .functionPointer a, b => by cases b <;> simp [LangType.beq, FunctionType.beq_iff a]
  | .tuple a, b => by cases b <;> simp [LangType.beq, beqTypes_iff a]

theorem FunctionParam.beq_iff : ∀ a b : FunctionParam, a.beq b = true ↔ a = b
  | .mk a v, .mk b w => by simp [FunctionParam.beq, LangType.beq_iff a]

theorem FunctionType.beq_iff : ∀ a b : FunctionType, a.beq b = true ↔ a = b
  | .mk p r _ _ _ _ _, .mk _ _ _ _ _ _ _ => by
    simp [FunctionType.beq, beqParams_iff p, FunctionParam.beq_iff r, and_assoc]

theorem CoroutineTypeDescription.beq_iff : ∀ a b : CoroutineTypeDescription, a.beq b = true ↔ a = b
  | .mk _ r _ _ _ _, .mk _ _ _ _ _ _ => by
    simp only [CoroutineTypeDescription.beq, FunctionParam.beq_iff r, Bool.and_eq_true,
      decide_eq_true_eq, CoroutineTypeDescription.mk.injEq]
    exact and_left_comm

theorem Class.beq_iff : ∀ a b : Class, a.beq b = true ↔ a = b
  | .declared a n, b => by cases b <;> simp [Class.beq, NamesScope.beq_iff a]
  | .ofTemplate a as, b => by cases b <;> simp [Class.beq, TypeTemplate.beq_iff a, beqArgs_iff as]
  | .coroutine a, b => by cases b <;> simp [Class.beq, CoroutineTypeDescription.beq_iff a]

theorem TypeTemplate.beq_iff : ∀ a b : TypeTemplate, a.beq b = true ↔ a = b
  | .mk a n i, .mk b m j => by simp [TypeTemplate.beq, NamesScope.beq_iff a]

theorem TemplateArg.beq_iff : ∀ a b : TemplateArg, a.beq b = true ↔ a = b
  | .type a, b | .variable_ a v, b => by cases b <;> simp [TemplateArg.beq, LangType.beq_iff a]
  | .typeTemplate a, b => by cases b <;> simp [TemplateArg.beq, TypeTemplate.beq_iff a]

theorem NamesScope.beq_iff : ∀ a b : NamesScope, a.beq b = true ↔ a = b
  | .root, b => by cases b <;> simp [NamesScope.beq]
  | .namespace_ a n, b => by cases b <;> simp [NamesScope.beq, NamesScope.beq_iff a]
  | .members a, b => by cases b <;> simp [NamesScope.beq, Class.beq_iff a]

theorem beqTypes_iff : ∀ as bs : List LangType, beqTypes as bs = true ↔ as = bs
  | [], bs => by cases bs <;> simp [beqTypes]
  | a :: as, bs => by cases bs <;> simp [beqTypes, LangType.beq_iff a, beqTypes_iff as]

theorem beqParams_iff : ∀ as bs : List FunctionParam, beqParams as bs = true ↔ as = bs
  | [], bs => by cases bs <;> simp [beqParams]
  | a :: as, bs => by cases bs <;> simp [beqParams, FunctionParam.beq_iff a, beqParams_iff as]

theorem beqArgs_iff : ∀ as bs : List TemplateArg, beqArgs as bs = true ↔ as = bs
  | [], bs => by cases bs <;> simp [beqArgs]
  | a :: as, bs => by cases bs <;> simp [beqArgs, TemplateArg.beq_iff a, beqArgs_iff as]

end

instance : DecidableEq LangType := fun a b => decidable_of_iff _ (LangType.beq_iff a b)

instance : DecidableEq FunctionParam := fun a b => decidable_of_iff _ (FunctionParam.beq_iff a b)

instance : DecidableEq TypeTemplate := fun a b => decidable_of_iff _ (TypeTemplate.beq_iff a b)

instance : DecidableEq TemplateArg := fun a b => decidable_of_iff _ (TemplateArg.beq_iff a b)

end USprache.CodeBuilder.WithArgs
