import USprache.CodeBuilder.TypeMangling
import USprache.CodeBuilder.TypesWithArgs

/-!
# Encoding of template arguments

The functions of the Itanium mangler again, now for types whose class templates may have values
and type templates as arguments.  A value is written as an expression with its type.
-/

namespace USprache.CodeBuilder.WithArgs.Itanium

open LexSynt Encoding

/-- `getSExtValue` or `getZExtValue`: both give the low word of an integer longer than 64 bits. -/
def lowWord (isSigned : Bool) (num : APInt) : BitVec 64 :=
  if isSigned then num.bits.signExtend 64 else num.bits.setWidth 64

/-- `std::to_string` of an `int64_t`. -/
def signedDecimal (value : BitVec 64) : Text :=
  if value.msb then ascii '-' :: ManglerState.decimal (-value).toNat
  else ManglerState.decimal value.toNat

/-- The digits of a constant.  The negation of the least `int64_t` wraps. -/
def encodeInteger (isSigned : Bool) (num : APInt) : Encoding :=
  let argValue := lowWord isSigned num
  if isSigned then
    if argValue.msb then pushChar 'n' ++ push (signedDecimal (-argValue))
    else push (signedDecimal argValue)
  else push (ManglerState.decimal argValue.toNat)

def isSigned : LangType → Bool
  | .fundamental type | .enumType _ _ type => type.isSignedInteger
  | _ => false

mutual

def leafCount : LangType → Nat
  | .array elementType elementCount => elementCount.toNat * leafCount elementType
  | .tuple elementTypes => leafCounts elementTypes
  | _ => 1

def leafCounts : List LangType → Nat
  | [] => 0
  | type :: types => leafCount type + leafCounts types

end

/-- `getAggregateElement( uint32_t(i) )` of an array. -/
def arrayElement (elementType : LangType) (constexprValue : Constant) (i : Nat) : Constant :=
  (constexprValue.drop (i % 2 ^ 32 * leafCount elementType)).take (leafCount elementType)

def encodeParentPrefix (parent : NamesScope) (outer : Encoding) : Encoding :=
  match parent with
  | .root | .namespace_ _ [] | .members (.declared _ []) => nothing
  | _ => outer

/-- A name in a scope, with what `encodeNamespacePrefix` writes for the scope. -/
def encodeNestedName (name : Text) (parent : NamesScope) (outer : Encoding) : Encoding :=
  node (match parent with
    | .root => pushLengthPrefixed name
    | _ => pushChar 'N' ++ outer ++ pushLengthPrefixed name ++ pushChar 'E')

def FunctionParam.isVoidValue : FunctionParam → Bool
  | .mk (.fundamental .void_) .value => true
  | _ => false

mutual

def encodeTypeName : LangType → Encoding
  | .fundamental type => push (encodeFundamentalType type)
  | .array elementType elementCount =>
    node (pushChar 'A' ++ push (ManglerState.decimal elementCount.toNat) ++ pushChar '_' ++
      encodeTypeName elementType)
  | .tuple elementTypes =>
    node (node (pushLengthPrefixed Keyword.tup_.text) ++ pushChar 'I' ++
      encodeTypeNames elementTypes ++ pushChar 'E')
  | .classType class_ => encodeClass class_
  | .enumType parent name _ => encodeNestedName name parent (encodeNamespacePrefix parent)
  | .rawPointer elementType => node (pushChar 'P' ++ encodeTypeName elementType)
  | .functionPointer functionType => node (pushChar 'P' ++ encodeFunctionTypeName functionType)

def encodeTypeNames : List LangType → Encoding
  | [] => nothing
  | type :: types => encodeTypeName type ++ encodeTypeNames types

/-- `EncodeTemplateClassName`, with what is written for the scope and the arguments. -/
def encodeTemplateClassName : TypeTemplate → Encoding → Encoding
  | .mk parent name _, args =>
    node (encodeParentPrefix parent (encodeNamespacePrefix parent) ++ pushLengthPrefixed name) ++
      (pushChar 'I' ++ args ++ pushChar 'E')

def encodeClass : Class → Encoding
  | .declared parent name => encodeNestedName name parent (encodeNamespacePrefix parent)
  | .ofTemplate classTemplate signatureArgs =>
    let className := encodeTemplateClassName classTemplate (encodeTemplateArgs signatureArgs)
    node (match classTemplate with
      | .mk .root _ _ => className
      | _ => pushChar 'N' ++ className ++ pushChar 'E')
  | .coroutine description => encodeCoroutineType description

def encodeCoroutineType : CoroutineTypeDescription → Encoding
  | .mk kind returned returnReferences returnInnerReferences innerReferences nonSync =>
    node (node (pushLengthPrefixed kind.keyword.text) ++ pushChar 'I' ++
      encodeFunctionParam returned ++
      (if nonSync then encodeLiteral .bool_ 1 else nothing) ++
      concat (innerReferences.map (fun inner => encodeLiteral .u32_ inner.toNat)) ++
      unlessEmpty encodeReturnReferencesAsType returnReferences ++
      unlessEmpty encodeReturnInnerReferencesAsType returnInnerReferences ++
      pushChar 'E')

def encodeNamespacePrefix : NamesScope → Encoding
  | .root => node (pushLengthPrefixed [])
  | .namespace_ parent name =>
    node (encodeParentPrefix parent (encodeNamespacePrefix parent) ++ pushLengthPrefixed name)
  | .members (.declared parent name) =>
    node (encodeParentPrefix parent (encodeNamespacePrefix parent) ++ pushLengthPrefixed name)
  | .members (.ofTemplate classTemplate signatureArgs) =>
    node (encodeTemplateClassName classTemplate (encodeTemplateArgs signatureArgs))
  | .members (.coroutine description) => encodeCoroutineType description

def encodeFunctionParam : FunctionParam → Encoding
  | .mk type valueType => encodeWithValueType (encodeTypeName type) valueType

def encodeFunctionParams : List FunctionParam → Encoding
  | [] => nothing
  | param :: params =>
    (if FunctionParam.isVoidValue param then node (pushChar 'K' ++ encodeFunctionParam param)
      else encodeFunctionParam param) ++ encodeFunctionParams params

def encodeFunctionTypeName : FunctionType → Encoding
  | .mk params returned isUnsafe callingConvention returnReferences returnInnerReferences
      referencesPollution =>
    node (encodeCallingConvention callingConvention ++ pushChar 'F' ++
      encodeFunctionParam returned ++
      (encodeFunctionParams params ++ (if params.isEmpty then pushChar 'v' else nothing)) ++
      unlessEmpty encodeReferencePollutionAsType referencesPollution ++
      unlessEmpty encodeReturnReferencesAsType returnReferences ++
      unlessEmpty encodeReturnInnerReferencesAsType returnInnerReferences ++
      (if isUnsafe then node (pushLengthPrefixed (asciiText "unsafe")) else nothing) ++
      pushChar 'E')

def encodeTemplateArgs : List TemplateArg → Encoding
  | [] => nothing
  | arg :: args => encodeTemplateArgImpl arg ++ encodeTemplateArgs args

def encodeTemplateArgImpl : TemplateArg → Encoding
  | .type type => encodeTypeName type
  | .variable_ type constexprValue =>
    match type with
    | .fundamental _ | .enumType .. =>
      encodeConstexprValue type (encodeTypeName type) constexprValue
    | _ =>
      -- Encode composite template args as expressions.
      pushChar 'X' ++ encodeConstexprValue type (encodeTypeName type) constexprValue ++ pushChar 'E'
  | .typeTemplate (.mk parent name _) => encodeNestedName name parent (encodeNamespacePrefix parent)

/-- A value of the type, with what `encodeTypeName` writes for the type. -/
def encodeConstexprValue : LangType → Encoding → Constant → Encoding
  | .array elementType elementCount, typeName, constexprValue =>
    push (asciiText "tl") ++ typeName ++ concat ((List.range elementCount.toNat).map fun i =>
        encodeConstexprValue elementType (encodeTypeName elementType)
          (arrayElement elementType constexprValue i)) ++
      pushChar 'E'
  | .tuple elementTypes, typeName, constexprValue =>
    push (asciiText "tl") ++ typeName ++ encodeElementValues elementTypes constexprValue ++
      pushChar 'E'
  | type, typeName, constexprValue =>
    pushChar 'L' ++ typeName ++ encodeInteger (isSigned type) (constexprValue.headD ⟨64, 0⟩) ++
      pushChar 'E'

def encodeElementValues : List LangType → Constant → Encoding
  | [], _ => nothing
  | type :: types, constexprValue =>
    encodeConstexprValue type (encodeTypeName type) (constexprValue.take (leafCount type)) ++
      encodeElementValues types (constexprValue.drop (leafCount type))

end

end USprache.CodeBuilder.WithArgs.Itanium
