import USprache.CodeBuilder.MsvcManglerState
import USprache.CodeBuilder.TypesWithArgs

/-!
# MSVC type names

The functions of the MSVC mangler that write types.  Each returns the calls it makes on the
mangler state.  The name of a template is written to a state of its own.
-/

namespace USprache.CodeBuilder.WithArgs.ManglerMsvc

open LexSynt Msvc UInt8

def push (str : String) : List Call := [.pushElement (asciiText str)]

def written (calls : List Call) : Text := (({} : Msvc.ManglerState).run calls).res

def getFundamentalTypeMangledName : FundamentalType → Text
  | .void_ => asciiText "X"
  | .bool_ => asciiText "_N"
  | .i8_ => asciiText "C"
  | .u8_ => asciiText "E"
  | .i16_ => asciiText "F"
  | .u16_ => asciiText "G"
  | .i32_ => asciiText "H"
  | .u32_ => asciiText "I"
  | .i64_ => asciiText "_J"
  | .u64_ => asciiText "_K"
  | .i128_ => asciiText "_L"
  | .u128_ => asciiText "_M"
  | .ssize_type_ => asciiText "J"
  | .size_type_ => asciiText "K"
  | .f32_ => asciiText "M"
  | .f64_ => asciiText "N"
  | .char8_ => asciiText "D"
  | .char16_ => asciiText "_S"
  | .char32_ => asciiText "_U"
  -- Encode "byte" types as regular structs in global namespace.
  | .byte8_ => asciiText "Ubyte8@@"
  | .byte16_ => asciiText "Ubyte16@@"
  | .byte32_ => asciiText "Ubyte32@@"
  | .byte64_ => asciiText "Ubyte64@@"
  | .byte128_ => asciiText "Ubyte128@@"

def encodeFundamentalType (type : FundamentalType) : List Call :=
  [.pushElement (getFundamentalTypeMangledName type)]

def getCallingConventionName : CallingConvention → String
  | .default_ => "A"
  | .c => "B"
  | .fast => "I"
  | .cold => "U"
  | .system => "G"

def isSignedInteger : FundamentalType → Bool
  | .i8_ | .i16_ | .i32_ | .i64_ | .i128_ | .ssize_type_ => true
  | _ => false

def hexDigit (absValue i : Nat) : Nat := absValue >>> (4 * i) &&& 15

def leadingHexDigit (absValue : Nat) : Nat → Nat
  | 0 => 0
  | i + 1 => if hexDigit absValue (i + 1) = 0 then leadingHexDigit absValue i else i + 1

def hexDigits (absValue : Nat) : Nat → Text
  | 0 => [ofNat ('A'.toNat + hexDigit absValue 0)]
  | i + 1 => ofNat ('A'.toNat + hexDigit absValue (i + 1)) :: hexDigits absValue i

def absValueText (absValue : Nat) : Text :=
  if absValue = 0 then asciiText "A@"
  else if absValue ≤ 10 then [ofNat (absValue - 1 + '0'.toNat)]
  else hexDigits absValue (leadingHexDigit absValue 15) ++ [terminator]

/-- `EncodeNumber`.  `getSExtValue` and `getZExtValue` give the low word of a number that is
longer than 64 bits. -/
def numberText (num : APInt) (isSigned : Bool) : Text :=
  if isSigned then
    let valueSigned := num.bits.signExtend 64
    if valueSigned.msb then ascii '?' :: absValueText (-valueSigned).toNat
    else absValueText valueSigned.toNat
  else absValueText (num.bits.setWidth 64).toNat

def encodeNumber (num : APInt) (isSigned : Bool) : List Call := [.pushElement (numberText num isSigned)]

/-- `llvm::APInt( 64, n )`. -/
def apInt64 (n : Nat) : APInt := ⟨64, BitVec.ofNat 64 n⟩

def encodeSize (n : Nat) : List Call := encodeNumber (apInt64 n) false

def encodeTemplateName (name : Text) (args : List Call) : List Call :=
  [.encodeNameNoTerminator (written (push "?$" ++ [.encodeName name] ++ args ++ push "@"))]

def encodeParamReference (paramReference : ParamReference) : List Call :=
  push "2" ++ push "$$B" ++ push "Y0" ++ encodeSize 2 ++ encodeFundamentalType .char8_ ++
    encodeFundamentalType .char8_ ++ push "0" ++
    encodeSize ('0'.toNat + paramReference.first.toNat) ++
    encodeFundamentalType .char8_ ++ push "0" ++
    encodeSize (if paramReference.second = paramReferenceNumber then '_'.toNat
      else 'a'.toNat + paramReference.second.toNat) ++
    push "@"

/-- A part of the notation, like a template class with a special name. -/
def encodeNotationClass (name : String) (args : List Call) : List Call :=
  push "U" ++ encodeTemplateName (asciiText name) args ++ push "@"

def encodePollution (pollution : ReferencePollution) : List Call :=
  push "2" ++ push "$$B" ++ push "Y1" ++ encodeSize 2 ++ encodeSize 2 ++
    encodeFundamentalType .char8_ ++ encodeParamReference pollution.dst ++
    encodeParamReference pollution.src ++ push "@"

def encodeReferencePollution (referencesPollution : List ReferencePollution) : List Call :=
  encodeNotationClass "_RP" (push "$" ++ push "2" ++ push "$$B" ++ push "Y2" ++
    encodeSize referencesPollution.length ++ encodeSize 2 ++ encodeSize 2 ++
    encodeFundamentalType .char8_ ++ referencesPollution.flatMap encodePollution ++ push "@")

def encodeReferencesArray (returnReferences : List ParamReference) : List Call :=
  push "2" ++ push "$$B" ++ push "Y1" ++ encodeSize returnReferences.length ++ encodeSize 2 ++
    encodeFundamentalType .char8_ ++ returnReferences.flatMap encodeParamReference ++ push "@"

def encodeReturnReferences (returnReferences : List ParamReference) : List Call :=
  encodeNotationClass "_RR" (push "$" ++ encodeReferencesArray returnReferences)

def encodeReturnInnerReferences (returnInnerReferences : List (List ParamReference)) : List Call :=
  -- Just use "tup" as type name, without specifying exact values.
  encodeNotationClass "_RIR" (push "$" ++ push "2" ++ push "U" ++ push "tup" ++ push "@" ++ push "@" ++
    returnInnerReferences.flatMap encodeReferencesArray ++ push "@")

def unlessEmpty {α : Type} (encode : List α → List Call) (elements : List α) : List Call :=
  if elements.isEmpty then [] else encode elements

def encodeFunctionNotation (isUnsafe : Bool) (returnReferences : List ParamReference)
    (returnInnerReferences : List (List ParamReference))
    (referencesPollution : List ReferencePollution) : List Call :=
  (if isUnsafe then push "U" ++ push "unsafe" ++ push "@" ++ push "@" else []) ++
    unlessEmpty encodeReferencePollution referencesPollution ++
    unlessEmpty encodeReturnReferences returnReferences ++
    unlessEmpty encodeReturnInnerReferences returnInnerReferences

/-- The dimensions of nested arrays.  There are none for a type that is no array. -/
def encodeDimensions (dimensions : List UInt64) : List Call :=
  if dimensions.isEmpty then []
  else push "Y" ++ encodeSize dimensions.length ++
    dimensions.flatMap (fun dimensionSize => encodeSize dimensionSize.toNat)

def isArray : LangType → Bool
  | .array .. => true
  | _ => false

def isTuple : LangType → Bool
  | .tuple _ => true
  | _ => false

def isSigned : LangType → Bool
  | .fundamental type => isSignedInteger type
  | .enumType _ _ underlyingType => isSignedInteger underlyingType
  | _ => false

/-- "Return value is mutable", written for classes, enums and tuples. -/
def hasReturnMark : LangType → Bool
  | .classType _ | .enumType .. | .tuple _ => true
  | _ => false

/-- Trivial params (fundamentals with no reference modifiers) get no back references. -/
def isTrivial : FunctionParam → Bool
  | .mk (.fundamental _) .value => true
  | _ => false

mutual

/-- The number of integers in a constant of the type. -/
def leafCount : LangType → Nat
  | .array elementType elementCount => elementCount.toNat * leafCount elementType
  | .tuple elementTypes => leafCounts elementTypes
  | _ => 1

def leafCounts : List LangType → Nat
  | [] => 0
  | type :: types => leafCount type + leafCounts types

end

/-- The modifier of a reference.  `pointer_types_modifier_` is that of the target. -/
def encodeReferenceModifier (pointerTypesModifier : String) : ValueType → List Call
  | .value => []
  | .referenceMut => push "A" ++ push pointerTypesModifier ++ push "A"
  | .referenceImut => push "A" ++ push pointerTypesModifier ++ push "B"

section

variable (pointerTypesModifier : String)

mutual

/-- `EncodeType`, for a type that the loop over nested arrays has reached from an array of
these dimensions. -/
def encodeTypeFrom : LangType → List UInt64 → List Call
  | .fundamental type, dimensions => encodeDimensions dimensions ++ encodeFundamentalType type
  | .array elementType elementCount, dimensions =>
    encodeTypeFrom elementType (dimensions ++ [elementCount])
  | .tuple elementTypes, dimensions =>
    -- Encode tuples, like type templates.
    encodeDimensions dimensions ++ push "U" ++
      encodeTemplateName Keyword.tup_.text (encodeElementTypes elementTypes) ++ push "@"
  | .classType class_, dimensions =>
    encodeDimensions dimensions ++ push "U" ++ encodeClassName class_ ++ push "@"
  | .enumType parent name _, dimensions =>
    encodeDimensions dimensions ++ push "W" ++ push "4" ++ [.encodeName name] ++
      encodeNamespacePostfix parent ++ push "@"
  | .rawPointer elementType, dimensions =>
    encodeDimensions dimensions ++ push "P" ++ push pointerTypesModifier ++ push "A" ++
      encodeTypeFrom elementType []
  | .functionPointer functionType, dimensions =>
    encodeDimensions dimensions ++ push "P" ++ push "6" ++ encodeFunctionType functionType

/-- The types of a tuple, each as an argument of a template. -/
def encodeElementTypes : List LangType → List Call
  | [] => []
  | type :: types =>
    (if isArray type then push "$$B" else []) ++ encodeTypeFrom type [] ++ encodeElementTypes types

/-- `EncodeFunctionType`, of a full type. -/
def encodeFunctionType : FunctionType → List Call
  | .mk params (.mk returnType returnValueType) isUnsafe callingConvention returnReferences
      returnInnerReferences referencesPollution =>
    push (getCallingConventionName callingConvention) ++ (if returnValueType ≠ .value then
        encodeReferenceModifier pointerTypesModifier returnValueType
        else if hasReturnMark returnType then push "?" ++ push "A" else []) ++
      encodeTypeFrom returnType [] ++
      encodeFunctionParams params [] ++
      encodeFunctionNotation isUnsafe returnReferences returnInnerReferences referencesPollution ++
      -- In case of empty params just leave single type - "void" without terminator symbol.
      (if params.isEmpty && !isUnsafe && referencesPollution.isEmpty && returnReferences.isEmpty &&
          returnInnerReferences.isEmpty then encodeFundamentalType .void_
        else push "@") ++
      push "Z"

/-- The loop of `EncodeFunctionParams` with its table. -/
def encodeFunctionParams : List FunctionParam → List FunctionParam → List Call
  | [], _ => []
  | .mk type valueType :: params, backReferences =>
    if isTrivial (.mk type valueType) then
      encodeTypeFrom type [] ++ encodeFunctionParams params backReferences
    else
      match backReferences.idxOf? (.mk type valueType) with
      | some i => [.pushElement [digit i]] ++ encodeFunctionParams params backReferences
      | none =>
        encodeReferenceModifier pointerTypesModifier valueType ++ encodeTypeFrom type [] ++
          encodeFunctionParams params (if backReferences.length < numBackReferences
              then backReferences ++ [.mk type valueType] else backReferences)

/-- The arguments of a template, without the end of the list. -/
def encodeTemplateArgs : List TemplateArg → List Call
  | [] => []
  | arg :: args => encodeTemplateArgImpl arg ++ encodeTemplateArgs args

def encodeTemplateArgImpl : TemplateArg → List Call
  | .type type => (if isArray type then push "$$B" else []) ++ encodeTypeFrom type []
  | .variable_ type constexprValue =>
    if isArray type || isTuple type then
      push "$" ++ encodeConstexprValue type (encodeTypeFrom type []) constexprValue
    else
      encodeTypeFrom type [] ++ push "$0" ++
        encodeNumber (constexprValue.headD (apInt64 0)) (isSigned type)
  | .typeTemplate (.mk parent name _) =>
    push "U" ++ [.encodeName name] ++ encodeNamespacePostfix parent ++ push "@"

def encodeConstexprValue : LangType → List Call → Constant → List Call
  | .array elementType elementCount, typeCalls, constexprValue =>
    push "2" ++ push "$$B" ++ typeCalls ++ (List.range elementCount.toNat).flatMap (fun i =>
        -- `getAggregateElement( uint32_t(i) )`.
        encodeConstexprValue elementType (encodeTypeFrom elementType [])
          ((constexprValue.drop (i % 2 ^ 32 * leafCount elementType)).take (leafCount elementType))) ++
      push "@"
  | .tuple elementTypes, typeCalls, constexprValue =>
    push "2" ++ typeCalls ++ encodeElementValues elementTypes constexprValue ++ push "@"
  | type, typeCalls, constexprValue =>
    typeCalls ++ push "0" ++ encodeNumber (constexprValue.headD (apInt64 0)) (isSigned type)

def encodeElementValues : List LangType → Constant → List Call
  | [], _ => []
  | type :: types, constexprValue =>
    encodeConstexprValue type (encodeTypeFrom type []) (constexprValue.take (leafCount type)) ++
      encodeElementValues types (constexprValue.drop (leafCount type))

/-- The name of a class with its scopes: `EncodeFullName`, `EncodeTemplateClassName` or
`EncodeCoroutineClassName`, without the end of the list. -/
def encodeClassName : Class → List Call
  | .declared parent name => [.encodeName name] ++ encodeNamespacePostfix parent
  | .ofTemplate (.mk parent name _) signatureArgs =>
    encodeTemplateName name (encodeTemplateArgs signatureArgs) ++ encodeNamespacePostfix parent
  | .coroutine (.mk kind (.mk returnType returnValueType) returnReferences returnInnerReferences
      innerReferences nonSync) =>
    encodeTemplateName kind.keyword.text (
      encodeReferenceModifier pointerTypesModifier returnValueType ++ encodeTypeFrom returnType [] ++
      (if nonSync then
        encodeFundamentalType .bool_ ++ push "$0" ++ encodeNumber ⟨1, 1⟩ false else []) ++
      innerReferences.flatMap (fun innerReference =>
        encodeFundamentalType .u32_ ++ push "$0" ++ encodeSize innerReference.toNat) ++
      unlessEmpty encodeReturnReferences returnReferences ++
      unlessEmpty encodeReturnInnerReferences returnInnerReferences)

def encodeNamespacePostfix : NamesScope → List Call
  | .root => []
  | .namespace_ parent name => [.encodeName name] ++ encodeNamespacePostfix parent
  | .members class_ => encodeClassName class_

end

def encodeType (type : LangType) : List Call := encodeTypeFrom pointerTypesModifier type []

end

def pointerTypesModifierOf (is32Bit : Bool) : String := if is32Bit then "" else "E"

def mangleType (is32Bit : Bool) (type : LangType) : Text :=
  written (encodeType (pointerTypesModifierOf is32Bit) type)

end USprache.CodeBuilder.WithArgs.ManglerMsvc
