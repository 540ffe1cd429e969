import USprache.LexSynt.SyntaxElements

/-!
# The program writer

`ElementWrite` for complex names, type names and expressions.  What is written to the
stream is the result.
-/

namespace USprache.LexSynt

/-- The digits of a number in the given base, with letters in lower case. -/
def digitsText (base n : Nat) : Text := (Nat.toDigits base n).map ascii

/-- The `\u` sequence for a code: its last four hexadecimal digits. -/
def hexEscape (c : Nat) : Text := asciiText "\\u" ++ [3, 2, 1, 0].map fun i =>
      let val := (c >>> (i * 4)) &&& 15
      if val < 10 then UInt8.ofNat ('0'.toNat + val) else UInt8.ofNat ('a'.toNat + (val - 10))

/-- The body of the loop of `WriteStringEscaped`. -/
def escapeByte (b : UInt8) : Text :=
  if b = ascii '"' then asciiText "\\\""
  else if b = ascii '\'' then asciiText "'"
  else if b = ascii '\\' then asciiText "\\\\"
  else if b = 0x08 then asciiText "\\b"
  else if b = 0x0C then asciiText "\\f"
  else if b = 0x0A then asciiText "\\n"
  else if b = 0x0D then asciiText "\\r"
  else if b = 0x09 then asciiText "\\t"
  else if b = 0x00 then asciiText "\\0"
  -- Other bytes below 32 only: a byte from 0x80 on is extended by its sign.
  else if b < 32 then hexEscape b.toNat
  else [b]

def writeStringEscaped (s : Text) : Text := asciiText "\"" ++ s.flatMap escapeByte ++ asciiText "\""

def writeCharLiteralContent (codePoint : Nat) : Text :=
  if codePoint = '"'.toNat then asciiText "\""
  else if codePoint = '\''.toNat then asciiText "\\'"
  else if codePoint = '\\'.toNat then asciiText "\\\\"
  else if codePoint = 0x08 then asciiText "\\b"
  else if codePoint = 0x0C then asciiText "\\f"
  else if codePoint = 0x0A then asciiText "\\n"
  else if codePoint = 0x0D then asciiText "\\r"
  else if codePoint = 0x09 then asciiText "\\t"
  else if codePoint = 0x00 then asciiText "\\0"
  else
    (if codePoint < 32 then hexEscape codePoint else []) ++
      -- The character itself follows its escape sequence.
      (if codePoint ≤ 127 then [UInt8.ofNat codePoint] else pushCharToUTF8String codePoint [])

def writeInt128 (num : Int128) : Text :=
  if num.hi = 0 then digitsText 10 num.lo
  else asciiText "0x" ++ digitsText 16 num.hi ++ digitsText 16 num.lo

/-- A loop over elements with `", "` between them. -/
def separated (texts : List Text) : Text := (asciiText ", ").intercalate texts

mutual

def ComplexName.elementWrite : ComplexName → Text
  | .rootNamespaceNameLookup _ name => asciiText "::" ++ name
  | .rootNamespaceNameLookupCompletion _ name => asciiText "::" ++ name
  | .nameLookup _ name => name
  | .nameLookupCompletion _ name => name
  | .typeofTypeName _ expression =>
    Keyword.typeof_.text ++ asciiText "( " ++ expression.elementWrite ++ asciiText " )"
  | .namesScopeNameFetch _ name base => base.elementWrite ++ asciiText "::" ++ name
  | .namesScopeNameFetchCompletion _ name base => base.elementWrite ++ asciiText "::" ++ name
  | .templateParameterization _ templateArgs base =>
    base.elementWrite ++ asciiText "</ " ++ separated (elementsWrite templateArgs) ++ asciiText " />"

def TypeName.elementWrite : TypeName → Text
  | .complexName name => name.elementWrite
  | .tupleType _ elementTypes =>
    Keyword.tup_.text ++
      if elementTypes = [] then asciiText "[]"
      else asciiText "[ " ++ separated (typesWrite elementTypes) ++ asciiText " ]"
  | .rawPointerType _ elementType =>
    asciiText "$" ++ asciiText "(" ++ elementType.elementWrite ++ asciiText ")"
  | .arrayTypeName _ elementType size =>
    asciiText "[ " ++ elementType.elementWrite ++ asciiText ", " ++ size.elementWrite ++
      asciiText " ]"
  | .functionType element => element.text
  | .coroutineType element => element.text
  -- `WriteRawMixin`.
  | .mixinTypeName _ expression =>
    Keyword.mixin_.text ++ asciiText "( " ++ expression.elementWrite ++ asciiText " )"

def Expression.elementWrite : Expression → Text
  | .empty => []
  | .integerNumericConstant _ num typeSuffix => writeInt128 num ++ typeSuffix
  | .floatingPointNumericConstant _ num typeSuffix => num ++ typeSuffix
  | .booleanConstant _ value => if value then Keyword.true_.text else Keyword.false_.text
  | .moveOperator _ varName => Keyword.move_.text ++ asciiText "( " ++ varName ++ asciiText " )"
  | .moveOperatorCompletion _ varName =>
    Keyword.move_.text ++ asciiText "( " ++ varName ++ asciiText " )"
  | .stringLiteral _ value typeSuffix => writeStringEscaped value ++ typeSuffix
  | .charLiteral _ codePoint typeSuffix =>
    asciiText "'" ++ writeCharLiteralContent codePoint ++ asciiText "'" ++ typeSuffix
  | .typeInfo _ type =>
    Keyword.typeinfo_.text ++ asciiText "</ " ++ type.elementWrite ++ asciiText " />"
  | .sameType _ l r =>
    Keyword.same_type_.text ++ asciiText "</ " ++ l.elementWrite ++ asciiText ", " ++
      r.elementWrite ++ asciiText " />"
  -- The keyword is not written.
  | .nonSyncExpression _ type => asciiText "</ " ++ type.elementWrite ++ asciiText " />"
  | .callOperator _ expression arguments =>
    asciiText "( " ++ expression.elementWrite ++ asciiText "( " ++
      separated (elementsWrite arguments) ++ asciiText ")" ++ asciiText " )"
  | .callOperatorSignatureHelp _ expression =>
    expression.elementWrite ++ asciiText "( " ++ asciiText ")"
  | .subscriptOperator _ expression index =>
    asciiText "( " ++ expression.elementWrite ++ asciiText "[ " ++ index.elementWrite ++
      asciiText " ]" ++ asciiText " )"
  | .memberAccessOperator _ expression memberName none =>
    asciiText "( " ++ expression.elementWrite ++ asciiText "." ++ memberName ++ asciiText " )"
  | .memberAccessOperator _ expression memberName (some templateArgs) =>
    asciiText "( " ++ expression.elementWrite ++ asciiText "." ++ memberName ++ asciiText "</" ++
      separated (elementsWrite templateArgs) ++ asciiText "/>" ++ asciiText " )"
  | .memberAccessOperatorCompletion _ expression memberName =>
    asciiText "( " ++ expression.elementWrite ++ asciiText " )" ++ asciiText "." ++ memberName
  | .variableInitialization _ type initializer =>
    asciiText "( " ++ type.elementWrite ++ initializer.text ++ asciiText " )"
  | .awaitOperator _ expression =>
    asciiText "( " ++ expression.elementWrite ++ asciiText "." ++ Keyword.await_.text ++
      asciiText " )"
  | .unaryMinus _ expression =>
    asciiText "( " ++ asciiText "-" ++ expression.elementWrite ++ asciiText " )"
  | .logicalNot _ expression =>
    asciiText "( " ++ asciiText "!" ++ expression.elementWrite ++ asciiText " )"
  | .bitwiseNot _ expression =>
    asciiText "( " ++ asciiText "~" ++ expression.elementWrite ++ asciiText " )"
  | .safeExpression _ expression =>
    Keyword.safe_.text ++ asciiText "( " ++ expression.elementWrite ++ asciiText " )"
  | .unsafeExpression _ expression =>
    Keyword.unsafe_.text ++ asciiText "( " ++ expression.elementWrite ++ asciiText " )"
  | .binaryOperator _ operatorType left right =>
    asciiText "( " ++ left.elementWrite ++ asciiText " " ++
      asciiText (binaryOperatorToString operatorType) ++ asciiText " " ++ right.elementWrite ++
      asciiText " )"
  | .ternaryOperator _ condition branch0 branch1 =>
    asciiText "( " ++ condition.elementWrite ++ asciiText " ? " ++ branch0.elementWrite ++
      asciiText " : " ++ branch1.elementWrite ++ asciiText " )"
  | .referenceToRawPointerOperator _ expression =>
    asciiText "$<" ++ asciiText "(" ++ expression.elementWrite ++ asciiText ")"
  | .rawPointerToReferenceOperator _ expression =>
    asciiText "$>" ++ asciiText "(" ++ expression.elementWrite ++ asciiText ")"
  | .takeOperator _ expression =>
    Keyword.take_.text ++ asciiText "( " ++ expression.elementWrite ++ asciiText " )"
  | .lambda _ => Keyword.lambda_.text ++ asciiText "()\x7b\x7d"
  | .castMut _ expression =>
    Keyword.cast_mut_.text ++ asciiText "( " ++ expression.elementWrite ++ asciiText " )"
  | .castImut _ expression =>
    Keyword.cast_imut_.text ++ asciiText "( " ++ expression.elementWrite ++ asciiText " )"
  | .castRef _ type expression =>
    Keyword.cast_ref_.text ++ asciiText "</ " ++ type.elementWrite ++ asciiText " />( " ++
      expression.elementWrite ++ asciiText " )"
  | .castRefUnsafe _ type expression =>
    Keyword.cast_ref_unsafe_.text ++ asciiText "</ " ++ type.elementWrite ++ asciiText " />( " ++
      expression.elementWrite ++ asciiText " )"
  | .embed _ none expression =>
    Keyword.embed_.text ++ asciiText "( " ++ expression.elementWrite ++ asciiText " )"
  | .embed _ (some elementType) expression =>
    Keyword.embed_.text ++ asciiText "</" ++ elementType.elementWrite ++ asciiText "/>" ++
      asciiText "( " ++ expression.elementWrite ++ asciiText " )"
  | .externalFunctionAccess _ type name =>
    Keyword.import_.text ++ asciiText " " ++ Keyword.fn_.text ++ asciiText "</" ++
      type.elementWrite ++ asciiText "/>" ++ asciiText "( " ++ writeStringEscaped name ++
      asciiText " )"
  | .externalVariableAccess _ type name =>
    Keyword.import_.text ++ asciiText " " ++ Keyword.var_.text ++ asciiText "</" ++
      type.elementWrite ++ asciiText "/>" ++ asciiText "( " ++ writeStringEscaped name ++
      asciiText " )"
  | .typeName type => type.elementWrite

def elementsWrite : List Expression → List Text
  | [] => []
  | expression :: rest => expression.elementWrite :: elementsWrite rest

def typesWrite : List TypeName → List Text
  | [] => []
  | type :: rest => type.elementWrite :: typesWrite rest

end

def writeExpression (expression : Expression) : Text := expression.elementWrite

end USprache.LexSynt
