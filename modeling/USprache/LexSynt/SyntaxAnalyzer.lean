import USprache.LexSynt.LexicalAnalyzer
import USprache.LexSynt.MacroExpansion
import USprache.LexSynt.SyntaxElements

/-!
# The syntax analyzer

The part of the analyzer that parses expressions.  `it_` is the list of the lexems from
it to the end.  The methods that call each other are the fields of `SyntaxAnalyzer`;
`analyzer` ties them together, with a bound on the depth of the calls, which is also the
bound on the turns of each loop.
-/

namespace USprache.LexSynt

open Keyword

structure ParserState where
  lexems : List Lexem
  errorMessages : List LexSyntError
  /-- The distance of `last_error_it_` from the end. -/
  lastErrorIt : Nat
  lastErrorRepeats : Nat

abbrev Parser := StateT ParserState (Except Fault)

namespace ParserState

def start (lexems : List Lexem) : ParserState := ⟨lexems, [], 0, 0⟩

variable (st : ParserState)

def notEndOfFile : Bool := 1 < st.lexems.length

def nextLexem : ParserState :=
  if st.notEndOfFile then { st with lexems := st.lexems.tail } else st

def unexpectedLexemMessage (it : Lexem) : String :=
  if it.type = .integerNumber ∨ it.type = .floatingPointNumber then
    "Syntax error - unexpected number lexem"
  else "Syntax error - unexpected lexem \"" ++ messageText it.text ++ "\""

def addError (text : String) (srcLoc : SrcLoc) : ParserState :=
  { st with errorMessages := st.errorMessages ++ [⟨text, srcLoc⟩] }

/-- `PushErrorMessage`: not twice at one location, and after too many errors at one
lexem the lexem is skipped. -/
def pushErrorMessage (it : Lexem) : ParserState :=
  let st :=
    if st.errorMessages.getLast?.map (·.srcLoc) = some it.srcLoc then st
    else st.addError (unexpectedLexemMessage it) it.srcLoc
  let st :=
    if st.lexems.length = st.lastErrorIt then { st with lastErrorRepeats := st.lastErrorRepeats + 1 }
    else { st with lastErrorIt := st.lexems.length, lastErrorRepeats := 0 }
  if st.lastErrorRepeats > 10 then
    { st.nextLexem with lastErrorIt := st.nextLexem.lexems.length, lastErrorRepeats := 0 }
  else st

end ParserState

/-- After an error at a lexem the analyzer stays there or goes one lexem further. -/
theorem lexems_pushErrorMessage (st : ParserState) (it : Lexem) :
    (st.pushErrorMessage it).lexems = st.lexems ∨
      (st.pushErrorMessage it).lexems = st.nextLexem.lexems := by
  unfold ParserState.pushErrorMessage ParserState.addError ParserState.nextLexem
    ParserState.notEndOfFile
  dsimp only
  split_ifs <;> simp_all

/-- `static_cast<Lexem::Type>(int(bracket_type) + 1)` for the opening brackets. -/
def closingBracket : LexemType → Option LexemType
  | .bracketLeft => some .bracketRight
  | .squareBracketLeft => some .squareBracketRight
  | .braceLeft => some .braceRight
  | .templateBracketLeft => some .templateBracketRight
  | _ => none

/-- `TrySkipBrackets`, behind the opening bracket. -/
def trySkipBrackets : Nat → LexemType → List Lexem → Except Fault (List Lexem)
  | 0, _, _ => .error .outOfFuel
  | fuel + 1, closing, it :: next :: rest =>
    match closingBracket it.type with
    | some inner => do
      match ← trySkipBrackets fuel inner (next :: rest) with
      | it :: next :: rest =>
        if it.type = closing then return next :: rest
        else trySkipBrackets fuel closing (next :: rest)
      | short => return short
    | none =>
      if it.type = closing then return next :: rest
      else trySkipBrackets fuel closing (next :: rest)
  | _ + 1, _, short => .ok short

/-- `TryRecoverAfterError`, for expected lexems that are no keywords. -/
def tryRecoverAfterError (expectedLexems : List LexemType) :
    Nat → List Lexem → Except Fault (List Lexem)
  | 0, _ => .error .outOfFuel
  | fuel + 1, it :: next :: rest =>
    match closingBracket it.type with
    | some closing => do
      match ← trySkipBrackets fuel closing (next :: rest) with
      | it :: next :: rest =>
        if it.type ∈ expectedLexems then return it :: next :: rest
        else tryRecoverAfterError expectedLexems fuel (next :: rest)
      | short => return short
    | none =>
      if it.type ∈ expectedLexems then return it :: next :: rest
      else tryRecoverAfterError expectedLexems fuel (next :: rest)
  | _ + 1, short => .ok short

def templateArgumentsListControlLexems : List LexemType := [.comma, .templateBracketRight]

namespace Parser

/-- `*it_`. -/
def current : Parser Lexem := fun st =>
  match st.lexems with
  | [] => .error .readPastEnd
  | it :: _ => .ok (it, st)

def notEndOfFile : Parser Bool := fun st => .ok (st.notEndOfFile, st)

def nextLexem : Parser Unit := fun st => .ok ((), st.nextLexem)

def addError (text : String) (srcLoc : SrcLoc) : Parser Unit := fun st =>
  .ok ((), st.addError text srcLoc)

def pushErrorMessage : Parser Unit := do
  let it ← current
  modify (·.pushErrorMessage it)

def expectLexem (type : LexemType) : Parser Unit := do
  let it ← current
  if it.type = type then nextLexem else pushErrorMessage

def outOfFuel {α : Type} : Parser α := fun _ => .error .outOfFuel

def recover (fuel : Nat) (expectedLexems : List LexemType) : Parser Unit := fun st => do
  let lexems ← tryRecoverAfterError expectedLexems fuel st.lexems
  return ((), { st with lexems := lexems })

/-- A loop: each turn gives the value for the next one, or the result. -/
def loop {α β : Type} (turn : α → Parser (α ⊕ β)) : Nat → α → Parser β
  | 0, _ => outOfFuel
  | fuel + 1, a => do
    match ← turn a with
    | .inl a => loop turn fuel a
    | .inr b => return b

end Parser

def operatorsByPriorityTable : List (List (LexemType × BinaryOperatorType)) :=
  [[(.doublePipe, .lazyLogicalOr)], [(.doubleAmpersand, .lazyLogicalAnd)], [(.pipe, .or)],
    [(.caret, .xor)],
    [(.ampersand, .and)],
    [(.doubleEqual, .equal), (.exclamationEqual, .notEqual)],
    [(.less, .less), (.lessEqual, .lessEqual), (.greater, .greater), (.greaterEqual, .greaterEqual)],
    [(.lessEqualGreater, .compareOrder)],
    [(.doubleLess, .shiftLeft), (.doubleGreater, .shiftRight)],
    [(.plus, .add), (.minus, .sub)],
    [(.asterisk, .mul), (.slash, .div), (.percent, .rem)]]

/-- One digit is added to the words of a number, the lowest word first. -/
def pushDigit (base : Nat) : List Nat → Nat → List Nat × Nat
  | [], carry => ([], carry)
  | word :: words, carry =>
    let v := word * base + carry
    let (words, carry) := pushDigit base words (v / 2 ^ 32)
    (v % 2 ^ 32 :: words, carry)

def decodeDigits (base : Nat) : List Nat → Text → Option (List Nat)
  | words, [] => some words
  | words, c :: rest =>
    match tryParseDigit base c with
    | none => none
    | some digit =>
      match pushDigit base words digit with
      | (words, 0) => decodeDigits base words rest
      -- Overflow detected.
      | (_, _ + 1) => none

def decodeParsedInteger (base : Nat) (s : Text) : Option Int128 :=
  match decodeDigits base [0, 0, 0, 0] s with
  | some [w0, w1, w2, w3] => some ⟨w0 + w1 * 2 ^ 32, w2 + w3 * 2 ^ 32⟩
  | _ => none

/-- The text of an integer lexem, decoded by its base. -/
def decodeNumber (numStr : Text) : Option Int128 :=
  match numStr with
  | zero :: letter :: digits =>
    if zero = ascii '0' then
      match baseOfLetter letter with
      | some base => decodeParsedInteger base digits
      | none => decodeParsedInteger 10 numStr
    else decodeParsedInteger 10 numStr
  | _ => decodeParsedInteger 10 numStr

def typeSuffixSize : Nat := 8

structure OtherParsers where
  parseLambda : Parser OtherElement
  parseFunctionType : Parser OtherElement
  parseCoroutineType : Parser OtherElement
  parseStructNamedInitializer : Parser OtherElement
  /-- `FetchMacro` for expressions, with what `ExpandMacro` does for the macro. -/
  fetchMacro : Text → Option (Parser Expression)

structure SyntaxAnalyzer extends OtherParsers where
  fuel : Nat
  tryParseBinaryOperator : Nat → Parser Expression
  tryParseBinaryOperatorRightPart : Nat → Expression → Parser Expression
  parseBinaryOperatorComponent : Parser Expression
  tryParseBinaryOperatorComponentPostfixOperator : Expression → Parser Expression
  parseTypeName : Parser TypeName
  parseComplexNameTail : ComplexName → Parser ComplexName

open USprache.LexSynt.Parser

namespace SyntaxAnalyzer

variable (self : SyntaxAnalyzer)

def parseExpression : Parser Expression := self.tryParseBinaryOperator 0

def parseExpressionInBrackets : Parser Expression := do
  expectLexem .bracketLeft
  let expr ← self.parseExpression
  expectLexem .bracketRight
  return expr

def parseTypeNameInTemplateBrackets : Parser TypeName := do
  expectLexem .templateBracketLeft
  let result ← self.parseTypeName
  expectLexem .templateBracketRight
  return result

/-! ### Names -/

def templateArgsSeparator : Parser Unit := do
  let it ← current
  if it.type = .comma then
    nextLexem
    let it ← current
    if it.type = .templateBracketRight then pushErrorMessage
  else if it.type ≠ .templateBracketRight then
    pushErrorMessage
    recover self.fuel templateArgumentsListControlLexems

/-- A turn of the loop of `ParseTemplateArgs`. -/
def templateArgsTurn (result : List Expression) : Parser (List Expression ⊕ List Expression) := do
  if ← notEndOfFile then
    let it ← current
    if it.type = .templateBracketRight then
      nextLexem
      return .inr result
    else
      let arg ← self.parseExpression
      self.templateArgsSeparator
      return .inl (result ++ [arg])
  else return .inr result

def parseTemplateArgs : Parser (List Expression) := do
  nextLexem
  loop self.templateArgsTurn self.fuel []

def tryParseComplexNameTailWithTemplateArgs (base : ComplexName) : Parser ComplexName := do
  let it ← current
  if it.type = .templateBracketLeft then
    let templateArgs ← self.parseTemplateArgs
    self.parseComplexNameTail (.templateParameterization it.srcLoc templateArgs base)
  else self.parseComplexNameTail base

def complexNameTail (base : ComplexName) : Parser ComplexName := do
  let it ← current
  if it.type = .doubleColon then
    nextLexem
    let it ← current
    if it.type = .identifier then
      nextLexem
      self.tryParseComplexNameTailWithTemplateArgs (.namesScopeNameFetch it.srcLoc it.text base)
    else if it.type = .completionIdentifier then
      nextLexem
      return .namesScopeNameFetchCompletion it.srcLoc it.text base
    else
      pushErrorMessage
      return base
  else if it.type = .completionScope then
    nextLexem
    return .namesScopeNameFetchCompletion it.srcLoc [] base
  else return base

def parseComplexName : Parser ComplexName := do
  let it ← current
  match it.type with
  | .completionScope =>
    nextLexem
    return .rootNamespaceNameLookupCompletion it.srcLoc []
  | .doubleColon =>
    nextLexem
    let it ← current
    if it.type = .identifier then
      nextLexem
      self.tryParseComplexNameTailWithTemplateArgs (.rootNamespaceNameLookup it.srcLoc it.text)
    else if it.type = .completionIdentifier then
      nextLexem
      return .rootNamespaceNameLookupCompletion it.srcLoc it.text
    else
      pushErrorMessage
      let it ← current
      return .rootNamespaceNameLookupCompletion it.srcLoc []
  | .identifier =>
    if it.text = typeof_.text then
      nextLexem
      let expression ← self.parseExpressionInBrackets
      self.parseComplexNameTail (.typeofTypeName it.srcLoc expression)
    else
      nextLexem
      self.tryParseComplexNameTailWithTemplateArgs (.nameLookup it.srcLoc it.text)
  | .completionIdentifier =>
    nextLexem
    return .nameLookupCompletion it.srcLoc it.text
  | _ =>
    pushErrorMessage
    let it ← current
    return .rootNamespaceNameLookup it.srcLoc []

/-! ### Type names -/

def parseArrayTypeName : Parser TypeName := do
  let it ← current
  nextLexem
  let elementType ← self.parseTypeName
  expectLexem .comma
  let size ← self.parseExpression
  expectLexem .squareBracketRight
  return .arrayTypeName it.srcLoc elementType size

def tupleTypeTurn (elementTypes : List TypeName) : Parser (List TypeName ⊕ List TypeName) := do
  if ← notEndOfFile then
    let it ← current
    if it.type = .squareBracketRight then
      nextLexem
      return .inr elementTypes
    else
      let elementType ← self.parseTypeName
      let elementTypes := elementTypes ++ [elementType]
      let it ← current
      if it.type = .squareBracketRight then
        nextLexem
        return .inr elementTypes
      else if it.type ≠ .comma then
        pushErrorMessage
        return .inr elementTypes
      else
        nextLexem
        let it ← current
        if it.type = .squareBracketRight then
          pushErrorMessage
          return .inr elementTypes
        else return .inl elementTypes
  else return .inr elementTypes

def parseTupleType : Parser TypeName := do
  let it ← current
  nextLexem
  expectLexem .squareBracketLeft
  let elementTypes ← loop self.tupleTypeTurn self.fuel []
  return .tupleType it.srcLoc elementTypes

def parseRawPointerType : Parser TypeName := do
  let it ← current
  nextLexem
  expectLexem .bracketLeft
  let elementType ← self.parseTypeName
  expectLexem .bracketRight
  return .rawPointerType it.srcLoc elementType

def typeNameInBrackets : Parser TypeName := do
  nextLexem
  let typeName ← self.parseTypeName
  expectLexem .bracketRight
  return typeName

/-- `ParseExpressionMixin`: the location and the expression. -/
def parseExpressionMixin : Parser (SrcLoc × Expression) := do
  let it ← current
  nextLexem
  let expression ← self.parseExpressionInBrackets
  return (it.srcLoc, expression)

def typeName : Parser TypeName := do
  let it ← current
  if it.type = .squareBracketLeft then self.parseArrayTypeName
  else if it.type = .bracketLeft then self.typeNameInBrackets
  else if it.type = .identifier ∧ it.text = tup_.text then self.parseTupleType
  else if it.type = .dollar then self.parseRawPointerType
  else if it.type = .identifier ∧ (it.text = generator_.text ∨ it.text = async_.text) then
    return .coroutineType (← self.parseCoroutineType)
  else if it.type = .identifier ∧ it.text = fn_.text then
    return .functionType (← self.parseFunctionType)
  else if it.type = .identifier ∧ it.text = mixin_.text then
    let (srcLoc, expression) ← self.parseExpressionMixin
    return .mixinTypeName srcLoc expression
  else return .complexName (← self.parseComplexName)

/-! ### Postfix operators -/

/-- A turn of the loop of `ParseCall`.  The result is none where the source returns
`SignatureHelpTag`. -/
def callTurn (args : List Expression) : Parser (List Expression ⊕ Option (List Expression)) := do
  let it ← current
  if (← notEndOfFile) ∧ it.type ≠ .bracketRight then
    let arg ← self.parseExpression
    let args := args ++ [arg]
    let it ← current
    if it.type = .comma then
      nextLexem
      let it ← current
      if it.type = .bracketRight then
        pushErrorMessage
        return .inr (some args)
      else return .inl args
    else if it.type = .signatureHelpComma then return .inr none
    else return .inr (some args)
  else return .inr (some args)

def parseCall : Parser (Option (List Expression)) := do
  expectLexem .bracketLeft
  match ← loop self.callTurn self.fuel [] with
  | none => return none
  | some args =>
    expectLexem .bracketRight
    return some args

def subscriptOperator (it : Lexem) (expr : Expression) : Parser Expression := do
  nextLexem
  let index ← self.parseExpression
  expectLexem .squareBracketRight
  self.tryParseBinaryOperatorComponentPostfixOperator (.subscriptOperator it.srcLoc expr index)

def callOperator (it : Lexem) (expr : Expression) : Parser Expression := do
  match ← self.parseCall with
  | some args =>
    self.tryParseBinaryOperatorComponentPostfixOperator (.callOperator it.srcLoc expr args)
  | none =>
    let it ← current
    nextLexem
    return .callOperatorSignatureHelp it.srcLoc expr

def memberAccessOperator (expr : Expression) : Parser Expression := do
  nextLexem
  let it ← current
  if it.type = .identifier ∧ it.text = await_.text then
    nextLexem
    self.tryParseBinaryOperatorComponentPostfixOperator (.awaitOperator it.srcLoc expr)
  else if it.type = .identifier then
    nextLexem
    let next ← current
    if next.type = .templateBracketLeft then
      let templateArgs ← self.parseTemplateArgs
      self.tryParseBinaryOperatorComponentPostfixOperator
        (.memberAccessOperator it.srcLoc expr it.text (some templateArgs))
    else
      self.tryParseBinaryOperatorComponentPostfixOperator
        (.memberAccessOperator it.srcLoc expr it.text none)
  else if it.type = .completionIdentifier then
    nextLexem
    return .memberAccessOperatorCompletion it.srcLoc expr it.text
  else
    pushErrorMessage
    return .empty

def postfixOperator (expr : Expression) : Parser Expression := do
  let it ← current
  match it.type with
  | .squareBracketLeft => self.subscriptOperator it expr
  | .bracketLeft => self.callOperator it expr
  | .signatureHelpBracketLeft =>
    nextLexem
    self.tryParseBinaryOperatorComponentPostfixOperator (.callOperatorSignatureHelp it.srcLoc expr)
  | .dot => self.memberAccessOperator expr
  | .completionDot =>
    nextLexem
    return .memberAccessOperatorCompletion it.srcLoc expr []
  | .braceLeft =>
    let initializer ← self.parseStructNamedInitializer
    self.tryParseBinaryOperatorComponentPostfixOperator
      (.variableInitialization it.srcLoc expr initializer)
  | _ => return expr

/-! ### Components -/

/-- The number of an integer lexem, zero with an error if it is too large. -/
def parsedNumber (it : Lexem) : Parser Int128 :=
  match decodeNumber it.text with
  | some num => return num
  | none => do
    addError "Integer numeric literal overflow!" it.srcLoc
    return ⟨0, 0⟩

def parseIntegerNumericConstant : Parser Expression := do
  let it ← current
  nextLexem
  let num ← parsedNumber it
  let suffix ← current
  if suffix.type = .literalSuffix then
    if suffix.text.length > typeSuffixSize then
      addError "Type suffix of numeric literal is too long!" suffix.srcLoc
      nextLexem
      return .integerNumericConstant it.srcLoc num []
    else
      nextLexem
      return .integerNumericConstant it.srcLoc num suffix.text
  else return .integerNumericConstant it.srcLoc num []

def parseLiteral (make : SrcLoc → Text → Text → Expression) : Parser Expression := do
  let it ← current
  nextLexem
  let suffix ← current
  if suffix.type = .literalSuffix then
    nextLexem
    return make it.srcLoc it.text suffix.text
  else return make it.srcLoc it.text []

def parseCharLiteral : Parser Expression := do
  let it ← current
  let codePoint := getUTF8FirstChar it.text
  nextLexem
  let suffix ← current
  if suffix.type = .literalSuffix then
    if suffix.text.length < typeSuffixSize then
      nextLexem
      return .charLiteral it.srcLoc codePoint suffix.text
    else
      addError "Char literal type suffix overflow" suffix.srcLoc
      nextLexem
      return .charLiteral it.srcLoc codePoint []
  else return .charLiteral it.srcLoc codePoint []

def prefixOperator (make : SrcLoc → Expression → Expression) : Parser Expression := do
  let it ← current
  nextLexem
  let expression ← self.parseBinaryOperatorComponent
  return make it.srcLoc expression

def bracketsOperator (make : SrcLoc → Expression → Expression) : Parser Expression := do
  let it ← current
  nextLexem
  let expression ← self.parseExpressionInBrackets
  return make it.srcLoc expression

def bracketsOrTernaryOperator : Parser Expression := do
  expectLexem .bracketLeft
  let expr ← self.parseExpression
  let it ← current
  if it.type = .bracketRight then
    nextLexem
    return expr
  else if it.type = .question then
    nextLexem
    let branch0 ← self.parseExpression
    expectLexem .colon
    let branch1 ← self.parseExpression
    expectLexem .bracketRight
    return .ternaryOperator it.srcLoc expr branch0 branch1
  else
    pushErrorMessage
    return expr

def moveOperator : Parser Expression := do
  nextLexem
  expectLexem .bracketLeft
  let it ← current
  if it.type = .completionIdentifier then
    nextLexem
    return .moveOperatorCompletion it.srcLoc it.text
  else if it.type = .identifier then
    nextLexem
    expectLexem .bracketRight
    return .moveOperator it.srcLoc it.text
  else
    pushErrorMessage
    return .empty

/-- `cast_ref` and `cast_ref_unsafe`. -/
def castRef (make : SrcLoc → TypeName → Expression → Expression) : Parser Expression := do
  let it ← current
  nextLexem
  let type ← self.parseTypeNameInTemplateBrackets
  let expression ← self.parseExpressionInBrackets
  return make it.srcLoc type expression

def embed : Parser Expression := do
  let it ← current
  nextLexem
  let next ← current
  if next.type = .templateBracketLeft then
    nextLexem
    let elementType ← self.parseComplexName
    expectLexem .templateBracketRight
    let expression ← self.parseExpressionInBrackets
    return .embed it.srcLoc (some elementType) expression
  else
    let expression ← self.parseExpressionInBrackets
    return .embed it.srcLoc none expression

/-- What follows `import fn` and `import var`. -/
def externalAccess (srcLoc : SrcLoc) (make : SrcLoc → TypeName → Text → Expression) :
    Parser Expression := do
  nextLexem
  let type ← self.parseTypeNameInTemplateBrackets
  expectLexem .bracketLeft
  let it ← current
  if it.type ≠ .string then
    pushErrorMessage
    expectLexem .bracketRight
    return make srcLoc type []
  else
    nextLexem
    expectLexem .bracketRight
    return make srcLoc type it.text

/-- `typeinfo` and `non_sync`. -/
def typeOperator (make : SrcLoc → TypeName → Expression) : Parser Expression := do
  let it ← current
  nextLexem
  let type ← self.parseTypeNameInTemplateBrackets
  return make it.srcLoc type

def sameType : Parser Expression := do
  let it ← current
  nextLexem
  expectLexem .templateBracketLeft
  let l ← self.parseTypeName
  expectLexem .comma
  let r ← self.parseTypeName
  expectLexem .templateBracketRight
  return .sameType it.srcLoc l r

def nameComponent (it : Lexem) : Parser Expression := do
  match self.fetchMacro it.text with
  | some expandMacro => expandMacro
  | none => return (← self.parseComplexName).toExpression

/-- The branches for identifiers from `typeinfo` on. -/
def keywordComponentTail : Parser Expression := do
  let it ← current
  if it.text = typeinfo_.text then self.typeOperator .typeInfo
  else if it.text = same_type_.text then self.sameType
  else if it.text = non_sync_.text then self.typeOperator .nonSyncExpression
  else if it.text = safe_.text then self.bracketsOperator .safeExpression
  else if it.text = unsafe_.text then self.bracketsOperator .unsafeExpression
  else if it.text = mixin_.text then
    let (srcLoc, expression) ← self.parseExpressionMixin
    return .typeName (.mixinTypeName srcLoc expression)
  else if it.text = fn_.text ∨ it.text = typeof_.text ∨
      it.text = tup_.text ∨ it.text = generator_.text ∨
      it.text = async_.text then
    return .typeName (← self.parseTypeName)
  else self.nameComponent it

/-- `import`.  With neither `fn` nor `var` behind it, the branches that follow are
tried at the lexem behind it. -/
def importComponent : Parser Expression := do
  let it ← current
  nextLexem
  let next ← current
  if next.type = .identifier ∧ next.text = fn_.text then
    self.externalAccess it.srcLoc .externalFunctionAccess
  else if next.type = .identifier ∧ next.text = var_.text then
    self.externalAccess it.srcLoc .externalVariableAccess
  else
    pushErrorMessage
    self.keywordComponentTail

def identifierComponent : Parser Expression := do
  let it ← current
  if it.text = true_.text then
    nextLexem
    return .booleanConstant it.srcLoc true
  else if it.text = false_.text then
    nextLexem
    return .booleanConstant it.srcLoc false
  else if it.text = move_.text then moveOperator
  else if it.text = take_.text then self.bracketsOperator .takeOperator
  else if it.text = lambda_.text then return .lambda (← self.parseLambda)
  else if it.text = cast_ref_.text then self.castRef .castRef
  else if it.text = cast_ref_unsafe_.text then self.castRef .castRefUnsafe
  else if it.text = cast_imut_.text then self.bracketsOperator .castImut
  else if it.text = cast_mut_.text then self.bracketsOperator .castMut
  else if it.text = embed_.text then self.embed
  else if it.text = import_.text then self.importComponent
  else self.keywordComponentTail

def parseBinaryOperatorComponentCore : Parser Expression := do
  let it ← current
  match it.type with
  | .minus => self.prefixOperator .unaryMinus
  | .exclamation => self.prefixOperator .logicalNot
  | .tilde => self.prefixOperator .bitwiseNot
  | .doubleColon => return (← self.parseComplexName).toExpression
  | .completionScope => return (← self.parseComplexName).toExpression
  | .integerNumber => parseIntegerNumericConstant
  | .floatingPointNumber => parseLiteral .floatingPointNumericConstant
  | .string => parseLiteral .stringLiteral
  | .charLiteral => parseCharLiteral
  | .bracketLeft => self.bracketsOrTernaryOperator
  | .squareBracketLeft => return .typeName (← self.parseTypeName)
  | .dollar => return .typeName (← self.parseTypeName)
  | .dollarLess => self.bracketsOperator .referenceToRawPointerOperator
  | .dollarGreater => self.bracketsOperator .rawPointerToReferenceOperator
  | .identifier => self.identifierComponent
  | .completionIdentifier => return (← self.parseComplexName).toExpression
  | _ =>
    pushErrorMessage
    return .empty

def binaryOperatorRightPart (priority : Nat) (l : Expression) : Parser Expression := do
  let it ← current
  match (operatorsByPriorityTable.getD priority []).lookup it.type with
  | some operatorType =>
    nextLexem
    let r ← self.tryParseBinaryOperator (priority + 1)
    self.tryParseBinaryOperatorRightPart priority (.binaryOperator it.srcLoc operatorType l r)
  | none => return l

def binaryOperator (priority : Nat) : Parser Expression := do
  if priority ≥ operatorsByPriorityTable.length then self.parseBinaryOperatorComponent
  else
    let l ← self.tryParseBinaryOperator (priority + 1)
    self.tryParseBinaryOperatorRightPart priority l

def binaryOperatorComponent : Parser Expression := do
  let expr ← self.parseBinaryOperatorComponentCore
  self.tryParseBinaryOperatorComponentPostfixOperator expr

/-- The methods with their bodies, for calls of the given methods. -/
def bodies : SyntaxAnalyzer where
  toOtherParsers := self.toOtherParsers
  fuel := self.fuel + 1
  tryParseBinaryOperator := self.binaryOperator
  tryParseBinaryOperatorRightPart := self.binaryOperatorRightPart
  parseBinaryOperatorComponent := self.binaryOperatorComponent
  tryParseBinaryOperatorComponentPostfixOperator := self.postfixOperator
  parseTypeName := self.typeName
  parseComplexNameTail := self.complexNameTail

end SyntaxAnalyzer

/-- The analyzer, with a bound on the depth of the calls. -/
def analyzer (others : OtherParsers) : Nat → SyntaxAnalyzer
  | 0 =>
    { toOtherParsers := others
      fuel := 0
      tryParseBinaryOperator := fun _ => outOfFuel
      tryParseBinaryOperatorRightPart := fun _ _ => outOfFuel
      parseBinaryOperatorComponent := outOfFuel
      tryParseBinaryOperatorComponentPostfixOperator := fun _ => outOfFuel
      parseTypeName := outOfFuel
      parseComplexNameTail := fun _ => outOfFuel }
  | fuel + 1 => (analyzer others fuel).bodies

structure ExpressionParsingResult where
  expression : Expression
  errorMessages : List LexSyntError

def parseStandaloneExpression (others : OtherParsers) (fuel : Nat) (lexems : List Lexem) :
    Except Fault ExpressionParsingResult := do
  let (expression, st) ← (analyzer others fuel).parseExpression (.start lexems)
  match st.lexems with
  | [] => return ⟨expression, st.errorMessages⟩
  | it :: _ =>
    -- Parsing until the end is required.
    if it.type ≠ .endOfFile then return ⟨expression, (st.pushErrorMessage it).errorMessages⟩
    else return ⟨expression, st.errorMessages⟩

end USprache.LexSynt
