import USprache.CodeBuilder.TypesWithArgs

/-!
# Arguments of calls

The arguments of a call are built one after another.  Each leaves a value for the call and, if
it is constant, a constant for the evaluation of the call in the compiler.  A call of a
constexpr function is evaluated when there are as many constants as parameters.
-/

namespace USprache.CodeBuilder.WithArgs.CallArguments

instance : DecidableEq Class := fun a b => decidable_of_iff _ (Class.beq_iff a b)

/-- The structure of a class is created for this class only. -/
inductive LlvmType where
  | void_
  | integer (bitWidth : Nat)
  | float
  | double
  | pointer
  | classStruct (class_ : Class)
  | array (elementType : LlvmType) (elementCount : UInt64)
  | literalStruct (elementTypes : List LlvmType)

inductive Constant where
  | scalar (type : LlvmType) (bits : Nat)
  | aggregate (type : LlvmType) (elements : List Constant)

namespace Constant

def llvmType : Constant → LlvmType
  | scalar type _ => type
  | aggregate type _ => type

def getAggregateElement : Constant → Nat → Option Constant
  | scalar .., _ => none
  | aggregate _ elements, i => elements[i]?

def part (constant : Constant) (path : List Nat) : Option Constant :=
  path.foldlM getAggregateElement constant

end Constant

def fundamentalLlvmType (target : TargetPointers) : FundamentalType → LlvmType
  | .void_ => .void_
  | .bool_ => .integer 1
  | .f32_ => .float
  | .f64_ => .double
  | type => .integer (type.bitWidth target)

mutual

/-- `GetLLVMType`. -/
def llvmTypeOf (target : TargetPointers) : LangType → LlvmType
  | .fundamental type => fundamentalLlvmType target type
  | .enumType _ _ underlyingType => fundamentalLlvmType target underlyingType
  | .rawPointer _ => .pointer
  | .functionPointer _ => .pointer
  | .classType class_ => .classStruct class_
  | .array elementType elementCount => .array (llvmTypeOf target elementType) elementCount
  | .tuple elementTypes => .literalStruct (llvmTypesOf target elementTypes)

def llvmTypesOf (target : TargetPointers) : List LangType → List LlvmType
  | [] => []
  | type :: types => llvmTypeOf target type :: llvmTypesOf target types

end

inductive ClassKind where
  | struct_ | nonPolymorph | interface | abstract | polymorphNonFinal | polymorphFinal
deriving DecidableEq

def ClassKind.canBeParent : ClassKind → Bool
  | interface | abstract | polymorphNonFinal => true
  | struct_ | nonPolymorph | polymorphFinal => false

/-- `Class::Parent`. -/
structure ParentField where
  class_ : Class
  fieldNumber : Nat

structure ClassInfo where
  kind : ClassKind
  parents : List ParentField
  canBeConstexpr : Bool
  isCopyConstructible : Bool
  referenceTagCount : Nat

/-- `FunctionType::Param`, of a function or of an argument. -/
structure Param where
  type : LangType
  valueType : ValueType
deriving DecidableEq

/-- A conversion constructor, by its class and its number there. -/
structure ConversionConstructor where
  class_ : Class
  number : Nat

/-- The complete classes of a program.  The selection of conversion constructors is a part of
overloading resolution. -/
structure Program where
  target : TargetPointers
  info : Class → ClassInfo
  hasConversionConstructor : Param → LangType → Bool
  getConversionConstructor : Param → LangType → Option ConversionConstructor
  rank : Class → Nat
  rank_parent : ∀ class_, ∀ parent ∈ (info class_).parents, rank parent.class_ < rank class_
  /-- `CanNotDeriveFromThisType`. -/
  canBeParent : ∀ class_, ∀ parent ∈ (info class_).parents,
    (info parent.class_).kind.canBeParent = true
  /-- `the_class.can_be_constexpr= the_class.kind == Class::Kind::Struct`, before lambdas are
  changed to classes without parents. -/
  kind_of_constexpr : ∀ class_, (info class_).canBeConstexpr = true →
    (info class_).kind.canBeParent = false
  /-- `U_ASSERT( conversion_constructor != nullptr )`. -/
  selected : ∀ src dst, hasConversionConstructor src dst = true →
    ∃ constructor, getConversionConstructor src dst = some constructor
  class_of_selected : ∀ src dst constructor, getConversionConstructor src dst = some constructor →
    dst = .classType constructor.class_

namespace Program

variable (program : Program)

mutual

def canBeConstexpr : LangType → Bool
  | .fundamental _ | .enumType .. | .functionPointer _ => true
  | .rawPointer _ => false
  | .classType class_ => (program.info class_).canBeConstexpr
  | .array elementType _ => canBeConstexpr elementType
  | .tuple elementTypes => allCanBeConstexpr elementTypes

def allCanBeConstexpr : List LangType → Bool
  | [] => true
  | type :: types => canBeConstexpr type && allCanBeConstexpr types

end

mutual

def isCopyConstructible : LangType → Bool
  | .fundamental _ | .enumType .. | .rawPointer _ | .functionPointer _ => true
  | .classType class_ => (program.info class_).isCopyConstructible
  | .array elementType elementCount => elementCount == 0 || isCopyConstructible elementType
  | .tuple elementTypes => allCopyConstructible elementTypes

def allCopyConstructible : List LangType → Bool
  | [] => true
  | type :: types => isCopyConstructible type && allCopyConstructible types

end

mutual

def isAbstract : LangType → Bool
  | .fundamental _ | .enumType .. | .rawPointer _ | .functionPointer _ => false
  | .classType class_ => (program.info class_).kind == .abstract ||
      (program.info class_).kind == .interface
  | .array elementType elementCount => decide (0 < elementCount) && isAbstract elementType
  | .tuple elementTypes => anyAbstract elementTypes

def anyAbstract : List LangType → Bool
  | [] => false
  | type :: types => isAbstract type || anyAbstract types

end

mutual

def referenceTagCount : LangType → Nat
  | .fundamental _ | .enumType .. | .rawPointer _ | .functionPointer _ => 0
  | .classType class_ => (program.info class_).referenceTagCount
  | .array elementType _ => referenceTagCount elementType
  | .tuple elementTypes => sumReferenceTagCount elementTypes

def sumReferenceTagCount : List LangType → Nat
  | [] => 0
  | type :: types => referenceTagCount type + sumReferenceTagCount types

end

/-- `ReferenceIsConvertibleTo` of classes.  A class of rank zero has no parents. -/
def classIsConvertibleTo (other : Class) : Nat → Class → Bool
  | 0, class_ => decide (class_ = other)
  | rank + 1, class_ => decide (class_ = other) ||
      (program.info class_).parents.any fun parent => classIsConvertibleTo other rank parent.class_

/-- `ReferenceIsConvertible`, of complete types. -/
def referenceIsConvertible (type other : LangType) : Bool :=
  decide (type = other) ||
    match type, other with
    | .classType class_, .classType otherClass =>
      program.classIsConvertibleTo otherClass (program.rank class_) class_
    | _, _ => false

/-- The fields of parents that `CreateReferenceCast` goes through. -/
def castPath (other : Class) : Nat → Class → List Nat
  | 0, _ => []
  | rank + 1, class_ =>
    if class_ = other then []
    else
      match (program.info class_).parents.find?
        fun parent => program.classIsConvertibleTo other rank parent.class_ with
      | some parent => parent.fieldNumber :: castPath other rank parent.class_
      | none => []

end Program

/-- What the generated code passes: the value an expression is built to or the object it refers
to, a parent's part of such an object, or an object made from it.  A copy or a loaded value of
an object is what the object is. -/
inductive LlvmValue where
  | hiddenResult
  | built (value : Constant)
  | parentPart (ref : LlvmValue) (path : List Nat)
  | converted (constructor : ConversionConstructor) (src : LlvmValue)

structure Variable where
  type : LangType
  valueType : ValueType
  llvmValue : LlvmValue
  constexprValue : Option Constant
  hasOutgoingMutableNodes : Bool

inductive CallError where
  | unsafeFunctionCallOutsideUnsafeBlock
  | typesMismatch (expected given : LangType)
  | expectedMutableReference
  | referenceProtectionError
  | copyConstructValueOfNoncopyableType (type : LangType)
  | constructingAbstractClassOrInterface (type : LangType)
  | constexprFunctionEvaluationError (text : String)

/-- What one pass of the loop over the arguments adds. -/
structure BuiltArg where
  llvmValue : Option LlvmValue
  constant : Option Constant
  errors : List CallError

/-- The constructor is called as not constexpr. -/
def convertVariable (variable_ : Variable) (dstType : LangType)
    (constructor : ConversionConstructor) : Variable where
  type := dstType
  valueType := .value
  llvmValue := .converted constructor variable_.llvmValue
  constexprValue := none
  hasOutgoingMutableNodes := false

def BuiltArg.failed (error : CallError) : BuiltArg := ⟨none, none, [error]⟩

namespace Program

variable (program : Program)

/-- It is asserted that the reference is convertible; without it there is no value. -/
def createReferenceCast (ref : LlvmValue) (srcType dstType : LangType) : Option LlvmValue :=
  if !program.referenceIsConvertible srcType dstType then none
  else if srcType = dstType then some ref
  else
    match srcType, dstType with
    | .classType class_, .classType other =>
      some (.parentPart ref (program.castPath other (program.rank class_) class_))
    | _, _ => none

/-- The types are compatible, or one is converted to the other. -/
def isPassable (expr : Variable) (param : Param) : Bool :=
  program.referenceIsConvertible expr.type param.type ||
    program.hasConversionConstructor ⟨expr.type, expr.valueType⟩ param.type

def convertArg (expr : Variable) (param : Param) : Variable :=
  if program.referenceIsConvertible expr.type param.type then expr
  else
    match program.getConversionConstructor ⟨expr.type, expr.valueType⟩ param.type with
    | some constructor => convertVariable expr param.type constructor
    | none => expr

def buildReferenceArg (param : Param) (expr : Variable) : BuiltArg :=
  if !program.isPassable expr param then .failed (.typesMismatch param.type expr.type)
  else if param.valueType = .referenceMut then
    if expr.valueType ≠ .referenceMut then .failed .expectedMutableReference
    -- The cast does not look whether the argument is only passable by a conversion.
    else ⟨program.createReferenceCast expr.llvmValue expr.type param.type, none, []⟩
  else
    -- The constant is pushed before the value is cast or converted.
    ⟨if program.referenceIsConvertible expr.type param.type
      then program.createReferenceCast expr.llvmValue expr.type param.type
      else some (program.convertArg expr param).llvmValue, expr.constexprValue, []⟩

def isScalar : LangType → Bool
  | .fundamental _ | .enumType .. | .rawPointer _ | .functionPointer _ => true
  | .classType _ | .array .. | .tuple _ => false

def buildValueArg (param : Param) (expr : Variable) : BuiltArg :=
  if !program.isPassable expr param then .failed (.typesMismatch param.type expr.type)
  else
    let errors : List CallError :=
      if expr.hasOutgoingMutableNodes then [.referenceProtectionError] else []
    let expr := program.convertArg expr param
    if isScalar param.type then ⟨some expr.llvmValue, expr.constexprValue, errors⟩
    -- The constant is pushed before the type is checked.
    else if expr.valueType = .value ∧ expr.type = param.type then
      ⟨some expr.llvmValue, expr.constexprValue, errors⟩
    else if !program.isCopyConstructible param.type then
      ⟨none, expr.constexprValue, errors ++ [.copyConstructValueOfNoncopyableType param.type]⟩
    else if program.isAbstract param.type then
      ⟨none, expr.constexprValue, errors ++ [.constructingAbstractClassOrInterface param.type]⟩
    else
      ⟨program.createReferenceCast expr.llvmValue expr.type param.type, expr.constexprValue, errors⟩

def buildArg (param : Param) (expr : Variable) : BuiltArg :=
  if param.valueType ≠ .value then program.buildReferenceArg param expr
  else program.buildValueArg param expr

end Program

/-- `FunctionType`, without the notation of references. -/
structure CalledFunctionType where
  params : List Param
  returned : Param
  isUnsafe : Bool

def CalledFunctionType.returnsCompositeValue (functionType : CalledFunctionType) : Bool :=
  functionType.returned.valueType = .value && !Program.isScalar functionType.returned.type

/-- The variable that an argument is built to, with the value it has when the call is executed. -/
structure Argument (program : Program) where
  type : LangType
  valueType : ValueType
  constexprValue : Option Constant
  hasOutgoingMutableNodes : Bool
  value : Constant
  llvmType_value : value.llvmType = llvmTypeOf program.target type
  value_of_constexpr : ∀ constant, constexprValue = some constant → value = constant

def Argument.variable_ {program : Program} (argument : Argument program) : Variable where
  type := argument.type
  valueType := argument.valueType
  llvmValue := .built argument.value
  constexprValue := argument.constexprValue
  hasOutgoingMutableNodes := argument.hasOutgoingMutableNodes

/-- The parameters of `DoCallFunction`, with what its callers promise. -/
structure Call (program : Program) where
  functionType : CalledFunctionType
  isRealFunction : Bool
  returnsByPointer : Bool
  preevaluatedArgs : List (Argument program)
  args : List (Argument program)
  evaluateArgsInReverseOrder : Bool
  isInUnsafeBlock : Bool
  funcIsConstexpr : Bool
  /-- `U_ASSERT( arg_count == function_type.params.size() )`. -/
  length_args : (preevaluatedArgs ++ args).length = functionType.params.length
  /-- Only operators that assign are called in reverse order, and `CheckOverloadedOperator` wants
  a mutable reference for the first parameter of these. -/
  first_param_of_reverse : evaluateArgsInReverseOrder = true →
    ∃ type params, functionType.params = ⟨type, .referenceMut⟩ :: params
  /-- `InvalidTypeForConstexprFunction`. -/
  params_of_constexpr : funcIsConstexpr = true →
    ∀ param ∈ functionType.params, program.canBeConstexpr param.type = true
  composite_of_byPointer : returnsByPointer = true → functionType.returnsCompositeValue = true

/-- `llvm_args`, `constant_llvm_args` and the errors.  A place is `none` for a null pointer. -/
structure ArgsState where
  llvmArgs : List (Option LlvmValue)
  constantLlvmArgs : List (Option Constant)
  errors : List CallError

def ArgsState.add (state : ArgsState) (argNumber : Nat) (arg : BuiltArg) : ArgsState where
  llvmArgs :=
    match arg.llvmValue with
    | some llvmValue => state.llvmArgs.set argNumber (some llvmValue)
    | none => state.llvmArgs
  constantLlvmArgs := state.constantLlvmArgs ++ arg.constant.toList.map some
  errors := state.errors ++ arg.errors

structure ResultConstexpr where
  resultConstant : Option Constant
  errors : List String

inductive CallResult where
  | constant (value : Constant)
  | errorValue
  | callInstruction (llvmArgs : List (Option LlvmValue))
  | dummy

namespace Call

variable {program : Program} (call : Call program)

/-- The expressions are built to variables where the loop comes to them. -/
def exprs : List (Argument program) := call.preevaluatedArgs ++ call.args

def addArg (state : ArgsState) (argNumber : Nat) : ArgsState :=
  match call.functionType.params[argNumber]?, call.exprs[argNumber]? with
  | some param, some expr => state.add argNumber (program.buildArg param expr.variable_)
  | _, _ => state

def argNumbers : List Nat :=
  if call.evaluateArgsInReverseOrder then (List.range call.exprs.length).reverse
  else List.range call.exprs.length

def startErrors : List CallError :=
  if call.functionType.isUnsafe && !call.isInUnsafeBlock then
    [.unsafeFunctionCallOutsideUnsafeBlock]
  else []

def buildArgs : ArgsState := call.argNumbers.foldl call.addArg
    ⟨List.replicate call.exprs.length none, [], call.startErrors⟩

def llvmCallArgs : ArgsState :=
  if call.functionType.returnsCompositeValue && call.returnsByPointer then
    { call.buildArgs with
      llvmArgs := some .hiddenResult :: call.buildArgs.llvmArgs
      constantLlvmArgs := none :: call.buildArgs.constantLlvmArgs }
  else call.buildArgs

/-- `function_as_real_function->arg_size()`. -/
def llvmArgSize : Nat := call.functionType.params.length + if call.returnsByPointer then 1 else 0

def isEvaluated : Bool := call.funcIsConstexpr && call.isRealFunction &&
    call.llvmCallArgs.constantLlvmArgs.length == call.llvmArgSize &&
    call.functionType.returned.valueType == .value &&
    program.referenceTagCount call.functionType.returned.type == 0

def returnsVoid : Bool := call.functionType.returned.valueType = .value &&
    call.functionType.returned.type = .fundamental .void_

/-- `llvm::Constant::getNullValue( fundamental_llvm_types_.void_ )`. -/
def voidConstant : Constant := .aggregate .void_ []

/-- `DoCallFunction` in a function, without the links it makes between references. -/
def doCallFunction (evaluateConstexpr : List (Option Constant) → ResultConstexpr) :
    CallResult × List CallError :=
  let state := call.llvmCallArgs
  if call.isEvaluated then
    let result := evaluateConstexpr state.constantLlvmArgs
    let errors := state.errors ++ result.errors.map .constexprFunctionEvaluationError
    if result.errors.isEmpty then
      match result.resultConstant with
      | some constant =>
        (.constant (if call.returnsVoid then voidConstant else constant), errors)
      | none => (.errorValue, errors)
    else (.errorValue, errors)
  else if state.llvmArgs.all Option.isSome then (.callInstruction state.llvmArgs, state.errors)
  else (.dummy, state.errors)

end Call

end USprache.CodeBuilder.WithArgs.CallArguments
