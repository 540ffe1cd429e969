import USprache.CodeBuilder.Types

/-!
# Comparison of arrays and tuples

Arrays and tuples are compared with `==` by generated code, or, if both are constants, by a
recursion over the elements in the compiler.  Scalars have a third implementation in
`BuildBinaryOperator`, and classes their own operator.
-/

namespace USprache.CodeBuilder.EqualityComparison

open LexSynt

inductive DeclaredOperator where
  | none (containsOtherOperators : Bool)
  | defaulted
  | userDefined (number : Nat) (isDeleted : Bool)

mutual

/-- A type whose values are compared, with the declarations of the classes in it. -/
inductive ComparedType where
  | fundamental (type : FundamentalType)
  | enumType
  | rawPointer
  | functionPointer
  | array (elementType : ComparedType) (elementCount : Nat)
  | tuple (elementTypes : List ComparedType)
  | classType (class_ : ClassDeclaration)

/-- `hasOwnSpecialMethods`: a copy constructor, an assignment operator or a destructor is not
generated. -/
inductive ClassDeclaration where
  | mk (isStruct hasOwnSpecialMethods : Bool) (compareEqual : DeclaredOperator)
    (elements : List ClassElement)

/-- An element of the LLVM structure of a class.  A field of the class is at its `index`,
`other` is a virtual table pointer or an interface. -/
inductive ClassElement where
  | base (type : ComparedType)
  | other
  | field (type : ComparedType) (isReference isMutable : Bool)

end

/-- A value of a type.  A scalar is a bit pattern, an address, or the number of a function. -/
inductive Constant where
  | scalar (bits : Nat)
  | aggregate (elements : Nat → Constant)

namespace Constant

def bits : Constant → Nat
  | scalar bits => bits
  | aggregate _ => 0

def element : Constant → Nat → Constant
  | scalar bits, _ => scalar bits
  | aggregate elements, i => elements i

/-- `getAggregateElement( uint32_t(i) )`. -/
def getAggregateElement (constant : Constant) (i : Nat) : Constant := constant.element (i % 2 ^ 32)

end Constant

mutual

def ComparedType.isEqualityComparable : ComparedType → Bool
  | .fundamental _ | .enumType | .rawPointer | .functionPointer => true
  | .classType class_ => class_.isEqualityComparable
  | .array elementType _ => elementType.isEqualityComparable
  | .tuple elementTypes => allEqualityComparable elementTypes

/-- `is_equality_comparable` behind `TryGenerateEqualityCompareOperator`. -/
def ClassDeclaration.isEqualityComparable : ClassDeclaration → Bool
  | .mk _ _ (.userDefined _ isDeleted) _ => !isDeleted
  | .mk _ _ .defaulted elements => allElementsComparable elements
  | .mk isStruct _ (.none containsOtherOperators) elements =>
    isStruct && !containsOtherOperators && allElementsComparable elements

def ClassElement.isEqualityComparable : ClassElement → Bool
  | .base type => type.isEqualityComparable
  | .other => true
  | .field type isReference _ => type.isEqualityComparable && !isReference

def allEqualityComparable : List ComparedType → Bool
  | [] => true
  | type :: rest => type.isEqualityComparable && allEqualityComparable rest

def allElementsComparable : List ClassElement → Bool
  | [] => true
  | element :: rest => element.isEqualityComparable && allElementsComparable rest

end

mutual

def ComparedType.canBeConstexpr : ComparedType → Bool
  | .fundamental _ | .enumType | .functionPointer => true
  | .rawPointer => false
  | .classType class_ => class_.canBeConstexpr
  | .array elementType _ => elementType.canBeConstexpr
  | .tuple elementTypes => allCanBeConstexpr elementTypes

def ClassDeclaration.canBeConstexpr : ClassDeclaration → Bool
  | .mk _ _ (.userDefined _ _) _ => false
  | .mk isStruct hasOwnSpecialMethods _ elements =>
    isStruct && !hasOwnSpecialMethods && allElementsCanBeConstexpr elements

def ClassElement.canBeConstexpr : ClassElement → Bool
  | .base _ | .other => false
  | .field type isReference isMutable => type.canBeConstexpr && !(isReference && isMutable)

def allCanBeConstexpr : List ComparedType → Bool
  | [] => true
  | type :: rest => type.canBeConstexpr && allCanBeConstexpr rest

def allElementsCanBeConstexpr : List ClassElement → Bool
  | [] => true
  | element :: rest => element.canBeConstexpr && allElementsCanBeConstexpr rest

end

/-- `fcmp oeq` for numbers with the bit patterns. -/
def fcmpOEQ (infinity sign : Nat) (l r : Nat) : Bool :=
  l % sign ≤ infinity && r % sign ≤ infinity && (l == r || (l % sign == 0 && r % sign == 0))

def compareScalars : ComparedType → Nat → Nat → Bool
  | .fundamental .f32_, l, r => fcmpOEQ 0x7F800000 (2 ^ 31) l r
  | .fundamental .f64_, l, r => fcmpOEQ 0x7FF0000000000000 (2 ^ 63) l r
  | _, l, r => l == r

/-- A constant of type `i1`: the folder either finds its value or leaves an expression. -/
inductive Folded where
  | value (b : Bool)
  | expression
deriving DecidableEq

def Folded.and : Folded → Folded → Folded
  | value true, r => r
  | value false, _ => value false
  | expression, value false => value false
  | expression, _ => expression

section GeneratedCode

variable (userOperator : Nat → Constant → Constant → Bool)

mutual

/-- Whether the code passes by `false_basic_block`.  An array that is not empty in memory is
shorter than `size_type` can count. -/
def buildEqualityCompareOperatorPart : ComparedType → Constant → Constant → Bool
  | .fundamental type, l, r =>
    if type = .void_ then true else compareScalars (.fundamental type) l.bits r.bits
  | .enumType, l, r => compareScalars .enumType l.bits r.bits
  | .rawPointer, l, r => compareScalars .rawPointer l.bits r.bits
  | .functionPointer, l, r => compareScalars .functionPointer l.bits r.bits
  | .array elementType elementCount, l, r => (List.range elementCount).all fun i =>
    buildEqualityCompareOperatorPart elementType (l.element i) (r.element i)
  | .tuple elementTypes, l, r => compareTupleElements elementTypes 0 l r
  | .classType class_, l, r => callCompareEqual class_ l r

def callCompareEqual : ClassDeclaration → Constant → Constant → Bool
  | .mk _ _ (.userDefined number _) _, l, r => userOperator number l r
  | .mk _ _ _ elements, l, r => compareClassElements elements 0 l r

def compareTupleElements : List ComparedType → Nat → Constant → Constant → Bool
  | [], _, _, _ => true
  | type :: rest, i, l, r =>
    buildEqualityCompareOperatorPart type (l.element i) (r.element i) &&
      compareTupleElements rest (i + 1) l r

/-- The body of the operator that `TryGenerateEqualityCompareOperator` makes. -/
def compareClassElements : List ClassElement → Nat → Constant → Constant → Bool
  | [], _, _, _ => true
  | element :: rest, i, l, r =>
    compareClassElement element (l.element i) (r.element i) && compareClassElements rest (i + 1) l r

def compareClassElement : ClassElement → Constant → Constant → Bool
  | .base type, l, r => buildEqualityCompareOperatorPart type l r
  | .other, _, _ => true
  | .field type _ _, l, r => buildEqualityCompareOperatorPart type l r

end

end GeneratedCode

/-- `Interpreter::ResultConstexpr` of a function returning `bool`. -/
structure ResultConstexpr where
  errors : List Text
  resultConstant : Option Bool

/-- What the comparison of constants relies on: the folder's answers for addresses of
functions, and an evaluator that is right where it reports no error. -/
structure ConstantEvaluation (userOperator : Nat → Constant → Constant → Bool) where
  foldFunctionAddresses : Nat → Nat → Folded
  evaluateConstexpr : ClassDeclaration → Constant → Constant → ResultConstexpr
  evaluates : ∀ class_ l r, (evaluateConstexpr class_ l r).errors = [] →
    (evaluateConstexpr class_ l r).resultConstant = some (callCompareEqual userOperator class_ l r)

/-- The errors that are reported on the way, and the constant. -/
structure Comparison where
  errors : List Text
  result : Folded

namespace Comparison

def ofFolded (result : Folded) : Comparison := ⟨[], result⟩

def and (l r : Comparison) : Comparison := ⟨l.errors ++ r.errors, l.result.and r.result⟩

def ofResultConstexpr : ResultConstexpr → Comparison
  | ⟨[], some b⟩ => ofFolded (.value b)
  | ⟨errors, _⟩ => ⟨errors, .value true⟩

end Comparison

section Constants

variable {userOperator : Nat → Constant → Constant → Bool} (E : ConstantEvaluation userOperator)

/-- `ConstantExpr::getFCmp` and `ConstantExpr::getICmp` for equality. -/
def foldCompareScalars : ComparedType → Nat → Nat → Folded
  | .functionPointer, l, r => E.foldFunctionAddresses l r
  | type, l, r => .value (compareScalars type l r)

mutual

def constexprCompareEqual : ComparedType → Constant → Constant → Comparison
  | .fundamental type, l, r =>
    if type = .void_ then .ofFolded (.value true)
    else .ofFolded (foldCompareScalars E (.fundamental type) l.bits r.bits)
  | .enumType, l, r => .ofFolded (foldCompareScalars E .enumType l.bits r.bits)
  | .rawPointer, l, r => .ofFolded (foldCompareScalars E .rawPointer l.bits r.bits)
  | .functionPointer, l, r => .ofFolded (foldCompareScalars E .functionPointer l.bits r.bits)
  | .array elementType elementCount, l, r =>
    (List.range elementCount).foldl (fun res i => res.and
        (constexprCompareEqual elementType (l.getAggregateElement i) (r.getAggregateElement i)))
      (.ofFolded (.value true))
  | .tuple elementTypes, l, r =>
    constexprCompareTupleElements elementTypes 0 (.ofFolded (.value true)) l r
  | .classType class_, l, r => .ofResultConstexpr (E.evaluateConstexpr class_ l r)

def constexprCompareTupleElements :
    List ComparedType → Nat → Comparison → Constant → Constant → Comparison
  | [], _, res, _, _ => res
  | type :: rest, i, res, l, r =>
    constexprCompareTupleElements rest (i + 1)
      (res.and (constexprCompareEqual type (l.getAggregateElement i) (r.getAggregateElement i))) l r

end

/-- `BuildBinaryOperator` for `Equal` and two constants, `none` for a type that has no such
operator. -/
def buildBinaryOperatorEqual : ComparedType → Constant → Constant → Option Folded
  | .fundamental type, l, r =>
    if type = .void_ then some (.value true)
    else some (foldCompareScalars E (.fundamental type) l.bits r.bits)
  | .enumType, l, r => some (foldCompareScalars E .enumType l.bits r.bits)
  | .rawPointer, l, r => some (foldCompareScalars E .rawPointer l.bits r.bits)
  -- A constant of such a type is a function, and functions are compared without the folder.
  | .functionPointer, l, r => some (.value (l.bits == r.bits))
  | _, _, _ => none

inductive CompareError where
  | operationNotSupportedForThisType
  | constexprFunctionEvaluationError (text : Text)

/-- An argument of the operator, with its value at compile time or at run time. -/
inductive Operand where
  | constant (value : Constant)
  | variable_ (value : Constant)

def Operand.value : Operand → Constant
  | constant value => value
  | variable_ value => value

inductive OperatorResult where
  | constant (result : Folded)
  | code (reachesTrueEnd : Bool)

/-- `CallBinaryOperatorForArrayOrTuple` for `CompareEqual`. -/
def callBinaryOperatorForArrayOrTuple (type : ComparedType) (l r : Operand) :
    List CompareError × Option OperatorResult :=
  if !type.isEqualityComparable then ([.operationNotSupportedForThisType], none)
  else
    match l, r with
    | .constant l, .constant r =>
      let comparison := constexprCompareEqual E type l r
      (comparison.errors.map .constexprFunctionEvaluationError, some (.constant comparison.result))
    | l, r =>
      ([], some (.code (buildEqualityCompareOperatorPart userOperator type l.value r.value)))

end Constants

end USprache.CodeBuilder.EqualityComparison
