import USprache.LexSynt.Lexem

/-!
# Syntax elements

Keywords, operators and the trees of expressions, type names and complex names.

The variants of the source are flat: an expression holds each kind of type name and a
type name each kind of complex name.  Here the smaller variant is one constructor of
the larger one.  Lambdas, function types, coroutine types and struct initializers are
parsed by parts of the syntax analyzer that are not modelled; such an element is a
leaf that has its location and the text that is written for it.
-/

namespace USprache.LexSynt

/-- `Keywords`, from `keywords_list.txt`. -/
inductive Keyword where
  | fn_ | op_ | var_ | auto_ | return_ | yield_ | label_ | while_ | loop_ | break_
  | continue_ | if_ | static_if_ | enable_if_ | if_coro_advance_ | else_ | move_ | take_
  | byval_ | tup_ | struct_ | class_ | final_ | polymorph_ | interface_ | abstract_
  | non_sync_ | ordered_ | nodiscard_ | nomangle_ | call_conv_ | virtual_ | override_ | pure_
  | generator_ | async_ | await_ | namespace_ | public_ | private_ | protected_ | void_
  | bool_ | i8_ | u8_ | i16_ | u16_ | i32_ | u32_ | i64_ | u64_ | i128_ | u128_ | i256_
  | u256_ | i512_ | u512_ | i1024_ | u1024_ | i2048_ | u2048_ | i4096_ | u4096_ | f16_ | f32_
  | f80_ | f64_ | f128_ | char8_ | char16_ | char32_ | byte8_ | byte16_ | byte32_ | byte64_
  | byte128_ | byte256_ | byte512_ | byte1024_ | byte2048_ | byte4096_ | size_type_
  | ssize_type_ | true_ | false_ | mut_ | imut_ | constexpr_ | const_ | zero_init_
  | uninitialized_ | this_ | base_ | constructor_ | destructor_ | conversion_constructor_
  | static_assert_ | halt_ | safe_ | unsafe_ | type_ | typeinfo_ | same_type_ | typeof_
  | template_ | enum_ | cast_ref_ | cast_ref_unsafe_ | cast_imut_ | cast_mut_ | alloca_ | as_
  | is_ | import_ | export_ | embed_ | default_ | delete_ | for_ | with_ | do_ | switch_
  | case_ | typename_ | lambda_ | static_ | package_ | module_ | mixin_ | thread_local_
deriving DecidableEq

/-- `g_keywords`. -/
def Keyword.name : Keyword → String
  | fn_ => "fn"
  | op_ => "op"
  | var_ => "var"
  | auto_ => "auto"
  | return_ => "return"
  | yield_ => "yield"
  | label_ => "label"
  | while_ => "while"
  | loop_ => "loop"
  | break_ => "break"
  | continue_ => "continue"
  | if_ => "if"
  | static_if_ => "static_if"
  | enable_if_ => "enable_if"
  | if_coro_advance_ => "if_coro_advance"
  | else_ => "else"
  | move_ => "move"
  | take_ => "take"
  | byval_ => "byval"
  | tup_ => "tup"
  | struct_ => "struct"
  | class_ => "class"
  | final_ => "final"
  | polymorph_ => "polymorph"
  | interface_ => "interface"
  | abstract_ => "abstract"
  | non_sync_ => "non_sync"
  | ordered_ => "ordered"
  | nodiscard_ => "nodiscard"
  | nomangle_ => "nomangle"
  | call_conv_ => "call_conv"
  | virtual_ => "virtual"
  | override_ => "override"
  | pure_ => "pure"
  | generator_ => "generator"
  | async_ => "async"
  | await_ => "await"
  | namespace_ => "namespace"
  | public_ => "public"
  | private_ => "private"
  | protected_ => "protected"
  | void_ => "void"
  | bool_ => "bool"
  | i8_ => "i8"
  | u8_ => "u8"
  | i16_ => "i16"
  | u16_ => "u16"
  | i32_ => "i32"
  | u32_ => "u32"
  | i64_ => "i64"
  | u64_ => "u64"
  | i128_ => "i128"
  | u128_ => "u128"
  | i256_ => "i256"
  | u256_ => "u256"
  | i512_ => "i512"
  | u512_ => "u512"
  | i1024_ => "i1024"
  | u1024_ => "u1024"
  | i2048_ => "i2048"
  | u2048_ => "u2048"
  | i4096_ => "i4096"
  | u4096_ => "u4096"
  | f16_ => "f16"
  | f32_ => "f32"
  | f80_ => "f80"
  | f64_ => "f64"
  | f128_ => "f128"
  | char8_ => "char8"
  | char16_ => "char16"
  | char32_ => "char32"
  | byte8_ => "byte8"
  | byte16_ => "byte16"
  | byte32_ => "byte32"
  | byte64_ => "byte64"
  | byte128_ => "byte128"
  | byte256_ => "byte256"
  | byte512_ => "byte512"
  | byte1024_ => "byte1024"
  | byte2048_ => "byte2048"
  | byte4096_ => "byte4096"
  | size_type_ => "size_type"
  | ssize_type_ => "ssize_type"
  | true_ => "true"
  | false_ => "false"
  | mut_ => "mut"
  | imut_ => "imut"
  | constexpr_ => "constexpr"
  | const_ => "const"
  | zero_init_ => "zero_init"
  | uninitialized_ => "uninitialized"
  | this_ => "this"
  | base_ => "base"
  | constructor_ => "constructor"
  | destructor_ => "destructor"
  | conversion_constructor_ => "conversion_constructor"
  | static_assert_ => "static_assert"
  | halt_ => "halt"
  | safe_ => "safe"
  | unsafe_ => "unsafe"
  | type_ => "type"
  | typeinfo_ => "typeinfo"
  | same_type_ => "same_type"
  | typeof_ => "typeof"
  | template_ => "template"
  | enum_ => "enum"
  | cast_ref_ => "cast_ref"
  | cast_ref_unsafe_ => "cast_ref_unsafe"
  | cast_imut_ => "cast_imut"
  | cast_mut_ => "cast_mut"
  | alloca_ => "alloca"
  | as_ => "as"
  | is_ => "is"
  | import_ => "import"
  | export_ => "export"
  | embed_ => "embed"
  | default_ => "default"
  | delete_ => "delete"
  | for_ => "for"
  | with_ => "with"
  | do_ => "do"
  | switch_ => "switch"
  | case_ => "case"
  | typename_ => "typename"
  | lambda_ => "lambda"
  | static_ => "static"
  | package_ => "package"
  | module_ => "module"
  | mixin_ => "mixin"
  | thread_local_ => "thread_local"

/-- `Keyword( keyword )`. -/
def Keyword.text (keyword : Keyword) : Text := asciiText keyword.name

def IsKeyword (text : Text) : Prop := ∃ keyword : Keyword, keyword.text = text

inductive BinaryOperatorType where
  | add | sub | mul | div | rem
  | equal | notEqual | less | lessEqual | greater | greaterEqual | compareOrder
  | and | or | xor
  | shiftLeft | shiftRight
  | lazyLogicalAnd | lazyLogicalOr
deriving DecidableEq

def binaryOperatorToString : BinaryOperatorType → String
  | .add => "+"
  | .sub => "-"
  | .mul => "*"
  | .div => "/"
  | .rem => "%"
  | .equal => "=="
  | .notEqual => "!="
  | .less => "<"
  | .lessEqual => "<="
  | .greater => ">"
  | .greaterEqual => ">="
  | .compareOrder => "<=>"
  | .and => "&"
  | .or => "|"
  | .xor => "^"
  | .shiftLeft => "<<"
  | .shiftRight => ">>"
  | .lazyLogicalAnd => "&&"
  | .lazyLogicalOr => "||"

structure Int128 where
  lo : Nat
  hi : Nat
deriving DecidableEq

structure OtherElement where
  srcLoc : SrcLoc
  text : Text
deriving DecidableEq

mutual

inductive ComplexName where
  | rootNamespaceNameLookup (srcLoc : SrcLoc) (name : Text)
  | rootNamespaceNameLookupCompletion (srcLoc : SrcLoc) (name : Text)
  | nameLookup (srcLoc : SrcLoc) (name : Text)
  | nameLookupCompletion (srcLoc : SrcLoc) (name : Text)
  | typeofTypeName (srcLoc : SrcLoc) (expression : Expression)
  | namesScopeNameFetch (srcLoc : SrcLoc) (name : Text) (base : ComplexName)
  | namesScopeNameFetchCompletion (srcLoc : SrcLoc) (name : Text) (base : ComplexName)
  | templateParameterization (srcLoc : SrcLoc) (templateArgs : List Expression) (base : ComplexName)

/-- `EmptyVariant` is left out: no parsed type name is empty. -/
inductive TypeName where
  | complexName (name : ComplexName)
  | tupleType (srcLoc : SrcLoc) (elementTypes : List TypeName)
  | rawPointerType (srcLoc : SrcLoc) (elementType : TypeName)
  | arrayTypeName (srcLoc : SrcLoc) (elementType : TypeName) (size : Expression)
  | functionType (element : OtherElement)
  | coroutineType (element : OtherElement)
  | mixinTypeName (srcLoc : SrcLoc) (expression : Expression)

inductive Expression where
  | empty
  | integerNumericConstant (srcLoc : SrcLoc) (num : Int128) (typeSuffix : Text)
  | floatingPointNumericConstant (srcLoc : SrcLoc) (num typeSuffix : Text)
  | booleanConstant (srcLoc : SrcLoc) (value : Bool)
  | moveOperator (srcLoc : SrcLoc) (varName : Text)
  | moveOperatorCompletion (srcLoc : SrcLoc) (varName : Text)
  | stringLiteral (srcLoc : SrcLoc) (value typeSuffix : Text)
  | charLiteral (srcLoc : SrcLoc) (codePoint : Nat) (typeSuffix : Text)
  | typeInfo (srcLoc : SrcLoc) (type : TypeName)
  | sameType (srcLoc : SrcLoc) (l r : TypeName)
  | nonSyncExpression (srcLoc : SrcLoc) (type : TypeName)
  | callOperator (srcLoc : SrcLoc) (expression : Expression) (arguments : List Expression)
  | callOperatorSignatureHelp (srcLoc : SrcLoc) (expression : Expression)
  | subscriptOperator (srcLoc : SrcLoc) (expression index : Expression)
  /-- The template arguments are there if `has_template_args` is set. -/
  | memberAccessOperator (srcLoc : SrcLoc) (expression : Expression) (memberName : Text)
      (templateArgs : Option (List Expression))
  | memberAccessOperatorCompletion (srcLoc : SrcLoc) (expression : Expression) (memberName : Text)
  | variableInitialization (srcLoc : SrcLoc) (type : Expression) (initializer : OtherElement)
  | awaitOperator (srcLoc : SrcLoc) (expression : Expression)
  | unaryMinus (srcLoc : SrcLoc) (expression : Expression)
  | logicalNot (srcLoc : SrcLoc) (expression : Expression)
  | bitwiseNot (srcLoc : SrcLoc) (expression : Expression)
  | safeExpression (srcLoc : SrcLoc) (expression : Expression)
  | unsafeExpression (srcLoc : SrcLoc) (expression : Expression)
  | binaryOperator (srcLoc : SrcLoc) (operatorType : BinaryOperatorType) (left right : Expression)
  | ternaryOperator (srcLoc : SrcLoc) (condition branch0 branch1 : Expression)
  | referenceToRawPointerOperator (srcLoc : SrcLoc) (expression : Expression)
  | rawPointerToReferenceOperator (srcLoc : SrcLoc) (expression : Expression)
  | takeOperator (srcLoc : SrcLoc) (expression : Expression)
  | lambda (element : OtherElement)
  | castMut (srcLoc : SrcLoc) (expression : Expression)
  | castImut (srcLoc : SrcLoc) (expression : Expression)
  | castRef (srcLoc : SrcLoc) (type : TypeName) (expression : Expression)
  | castRefUnsafe (srcLoc : SrcLoc) (type : TypeName) (expression : Expression)
  | embed (srcLoc : SrcLoc) (elementType : Option ComplexName) (expression : Expression)
  | externalFunctionAccess (srcLoc : SrcLoc) (type : TypeName) (name : Text)
  | externalVariableAccess (srcLoc : SrcLoc) (type : TypeName) (name : Text)
  | typeName (type : TypeName)

end

def ComplexName.toExpression (name : ComplexName) : Expression := .typeName (.complexName name)

def erasedSrcLoc : SrcLoc := ⟨0, 0⟩

def OtherElement.eraseSrcLocs (element : OtherElement) : OtherElement :=
  { element with srcLoc := erasedSrcLoc }

mutual

def ComplexName.eraseSrcLocs : ComplexName → ComplexName
  | .rootNamespaceNameLookup _ name => .rootNamespaceNameLookup erasedSrcLoc name
  | .rootNamespaceNameLookupCompletion _ name =>
    .rootNamespaceNameLookupCompletion erasedSrcLoc name
  | .nameLookup _ name => .nameLookup erasedSrcLoc name
  | .nameLookupCompletion _ name => .nameLookupCompletion erasedSrcLoc name
  | .typeofTypeName _ expression => .typeofTypeName erasedSrcLoc expression.eraseSrcLocs
  | .namesScopeNameFetch _ name base => .namesScopeNameFetch erasedSrcLoc name base.eraseSrcLocs
  | .namesScopeNameFetchCompletion _ name base =>
    .namesScopeNameFetchCompletion erasedSrcLoc name base.eraseSrcLocs
  | .templateParameterization _ templateArgs base =>
    .templateParameterization erasedSrcLoc (eraseSrcLocsAll templateArgs) base.eraseSrcLocs

def TypeName.eraseSrcLocs : TypeName → TypeName
  | .complexName name => .complexName name.eraseSrcLocs
  | .tupleType _ elementTypes => .tupleType erasedSrcLoc (eraseSrcLocsOfTypes elementTypes)
  | .rawPointerType _ elementType => .rawPointerType erasedSrcLoc elementType.eraseSrcLocs
  | .arrayTypeName _ elementType size =>
    .arrayTypeName erasedSrcLoc elementType.eraseSrcLocs size.eraseSrcLocs
  | .functionType element => .functionType element.eraseSrcLocs
  | .coroutineType element => .coroutineType element.eraseSrcLocs
  | .mixinTypeName _ expression => .mixinTypeName erasedSrcLoc expression.eraseSrcLocs

def Expression.eraseSrcLocs : Expression → Expression
  | .empty => .empty
  | .integerNumericConstant _ num typeSuffix => .integerNumericConstant erasedSrcLoc num typeSuffix
  | .floatingPointNumericConstant _ num typeSuffix =>
    .floatingPointNumericConstant erasedSrcLoc num typeSuffix
  | .booleanConstant _ value => .booleanConstant erasedSrcLoc value
  | .moveOperator _ varName => .moveOperator erasedSrcLoc varName
  | .moveOperatorCompletion _ varName => .moveOperatorCompletion erasedSrcLoc varName
  | .stringLiteral _ value typeSuffix => .stringLiteral erasedSrcLoc value typeSuffix
  | .charLiteral _ codePoint typeSuffix => .charLiteral erasedSrcLoc codePoint typeSuffix
  | .typeInfo _ type => .typeInfo erasedSrcLoc type.eraseSrcLocs
  | .sameType _ l r => .sameType erasedSrcLoc l.eraseSrcLocs r.eraseSrcLocs
  | .nonSyncExpression _ type => .nonSyncExpression erasedSrcLoc type.eraseSrcLocs
  | .callOperator _ expression arguments =>
    .callOperator erasedSrcLoc expression.eraseSrcLocs (eraseSrcLocsAll arguments)
  | .callOperatorSignatureHelp _ expression =>
    .callOperatorSignatureHelp erasedSrcLoc expression.eraseSrcLocs
  | .subscriptOperator _ expression index =>
    .subscriptOperator erasedSrcLoc expression.eraseSrcLocs index.eraseSrcLocs
  | .memberAccessOperator _ expression memberName none =>
    .memberAccessOperator erasedSrcLoc expression.eraseSrcLocs memberName none
  | .memberAccessOperator _ expression memberName (some templateArgs) =>
    .memberAccessOperator erasedSrcLoc expression.eraseSrcLocs memberName
      (some (eraseSrcLocsAll templateArgs))
  | .memberAccessOperatorCompletion _ expression memberName =>
    .memberAccessOperatorCompletion erasedSrcLoc expression.eraseSrcLocs memberName
  | .variableInitialization _ type initializer =>
    .variableInitialization erasedSrcLoc type.eraseSrcLocs initializer.eraseSrcLocs
  | .awaitOperator _ expression => .awaitOperator erasedSrcLoc expression.eraseSrcLocs
  | .unaryMinus _ expression => .unaryMinus erasedSrcLoc expression.eraseSrcLocs
  | .logicalNot _ expression => .logicalNot erasedSrcLoc expression.eraseSrcLocs
  | .bitwiseNot _ expression => .bitwiseNot erasedSrcLoc expression.eraseSrcLocs
  | .safeExpression _ expression => .safeExpression erasedSrcLoc expression.eraseSrcLocs
  | .unsafeExpression _ expression => .unsafeExpression erasedSrcLoc expression.eraseSrcLocs
  | .binaryOperator _ operatorType left right =>
    .binaryOperator erasedSrcLoc operatorType left.eraseSrcLocs right.eraseSrcLocs
  | .ternaryOperator _ condition branch0 branch1 =>
    .ternaryOperator erasedSrcLoc condition.eraseSrcLocs branch0.eraseSrcLocs branch1.eraseSrcLocs
  | .referenceToRawPointerOperator _ expression =>
    .referenceToRawPointerOperator erasedSrcLoc expression.eraseSrcLocs
  | .rawPointerToReferenceOperator _ expression =>
    .rawPointerToReferenceOperator erasedSrcLoc expression.eraseSrcLocs
  | .takeOperator _ expression => .takeOperator erasedSrcLoc expression.eraseSrcLocs
  | .lambda element => .lambda element.eraseSrcLocs
  | .castMut _ expression => .castMut erasedSrcLoc expression.eraseSrcLocs
  | .castImut _ expression => .castImut erasedSrcLoc expression.eraseSrcLocs
  | .castRef _ type expression => .castRef erasedSrcLoc type.eraseSrcLocs expression.eraseSrcLocs
  | .castRefUnsafe _ type expression =>
    .castRefUnsafe erasedSrcLoc type.eraseSrcLocs expression.eraseSrcLocs
  | .embed _ none expression => .embed erasedSrcLoc none expression.eraseSrcLocs
  | .embed _ (some elementType) expression =>
    .embed erasedSrcLoc (some elementType.eraseSrcLocs) expression.eraseSrcLocs
  | .externalFunctionAccess _ type name =>
    .externalFunctionAccess erasedSrcLoc type.eraseSrcLocs name
  | .externalVariableAccess _ type name =>
    .externalVariableAccess erasedSrcLoc type.eraseSrcLocs name
  | .typeName type => .typeName type.eraseSrcLocs

def eraseSrcLocsAll : List Expression → List Expression
  | [] => []
  | expression :: rest => expression.eraseSrcLocs :: eraseSrcLocsAll rest

def eraseSrcLocsOfTypes : List TypeName → List TypeName
  | [] => []
  | type :: rest => type.eraseSrcLocs :: eraseSrcLocsOfTypes rest

end

end USprache.LexSynt
