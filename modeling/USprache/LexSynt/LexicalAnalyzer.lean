import USprache.LexSynt.Lexem

/-!
# The lexical analyzer

The read position is the rest of the text.  Reading is allowed up to the terminating
NUL behind it, and moving up to the end.  Where the source has tested for the end before,
the test is a test for the empty rest here; where it has not, reading and moving
go through `peek` and `advance`, which report a fault.

`char` is signed, as on the targets the compiler is built for.
-/

namespace USprache.LexSynt

open List

inductive Fault where
  | movePastEnd
  | readPastEnd
  | outOfFuel
deriving DecidableEq

/-- `it[ i ]`. -/
def peek (it : Text) (i : Nat) : Except Fault UInt8 :=
  if i ≤ it.length then .ok (it.getD i 0) else .error .readPastEnd

/-- `it+= k`. -/
def advance (it : Text) (k : Nat) : Except Fault Text :=
  if k ≤ it.length then .ok (it.drop k) else .error .movePastEnd

/-- `*std::next(it)`, read if it is before the end. -/
def peekNext (it : Text) : Except Fault (Option UInt8) :=
  if 1 < it.length then (peek it 1).map some else .ok none

theorem peek_of_le {it : Text} {i : Nat} (h : i ≤ it.length) : peek it i = .ok (it.getD i 0) :=
  if_pos h

theorem advance_of_le {it : Text} {k : Nat} (h : k ≤ it.length) : advance it k = .ok (it.drop k) :=
  if_pos h

theorem peekNext_eq (it : Text) : peekNext it = .ok it[1]? := by
  unfold peekNext
  split
  · rename_i h
    rw [peek_of_le (by omega), getD_eq_getElem?_getD, getElem?_eq_getElem h]
    rfl
  · rw [getElem?_eq_none (by omega)]

def consumed (it it' : Text) : Text := it.take (it.length - it'.length)

/-- `sprache_char( *it )`: the byte is extended by its sign. -/
def spracheChar (b : UInt8) : Nat := if b < 0x80 then b.toNat else b.toNat + (2 ^ 32 - 2 ^ 8)

def isWhitespace (c : Nat) : Bool := c = 0x20 || c ≤ 0x1F || c = 0x7F

def isNumberStartChar (c : Nat) : Bool := '0'.toNat ≤ c && c ≤ '9'.toNat

def isIdentifierStartChar (c : Nat) : Bool := ('a'.toNat ≤ c && c ≤ 'z'.toNat) ||
  ('A'.toNat ≤ c && c ≤ 'Z'.toNat) ||
  (0x0400 ≤ c && c ≤ 0x04FF) ||
  (0x0500 ≤ c && c ≤ 0x0527) ||
  (0x00C0 ≤ c && c ≤ 0x00D6) ||
  (0x00D8 ≤ c && c ≤ 0x00F6) ||
  (0x00F8 ≤ c && c ≤ 0x00FF) ||
  (0x0100 ≤ c && c ≤ 0x017F) ||
  (0x0180 ≤ c && c ≤ 0x024F)

def isIdentifierChar (c : Nat) : Bool :=
  isIdentifierStartChar c || isNumberStartChar c || c = '_'.toNat

def isMacroIdentifierStartChar (c : Nat) : Bool := c = '?'.toNat

def tryParseDigit (base : Nat) (b : UInt8) : Option Nat :=
  let c := b.toNat
  let digit :=
    if '0'.toNat ≤ c ∧ c ≤ '9'.toNat then some (c - '0'.toNat)
    else if 'a'.toNat ≤ c ∧ c ≤ 'f'.toNat then some (c - 'a'.toNat + 10)
    else if 'A'.toNat ≤ c ∧ c ≤ 'F'.toNat then some (c - 'A'.toNat + 10)
    else none
  digit.filter (· < base)

def isDigit (base : Nat) (b : UInt8) : Bool := (tryParseDigit base b).isSome

/-- What a sub-lexer gives: the text of the lexem, the position behind it and the
texts of its errors. -/
structure Parsed where
  text : Text
  it : Text
  errors : List String
deriving DecidableEq

def simpleEscape (e : UInt8) : Option UInt8 :=
  if e = ascii '"' ∨ e = ascii '\'' ∨ e = ascii '\\' ∨ e = ascii '/' then some e
  else if e = ascii 'b' then some 0x08
  else if e = ascii 'f' then some 0x0C
  else if e = ascii 'n' then some 0x0A
  else if e = ascii 'r' then some 0x0D
  else if e = ascii 't' then some 0x09
  else if e = ascii '0' then some 0x00
  else none

/-- The loop over the four digits of `\u`: the code, or the index of the first
byte that is no digit. -/
def hexCode : List UInt8 → Nat → Nat → Except Nat Nat
  | [], _, code => .ok code
  | b :: digits, i, code =>
    match tryParseDigit 16 b with
    | none => .error i
    | some digit => hexCode digits (i + 1) (code ||| (digit <<< ((3 - i) * 4)))

def invalidEscapeMessage (b : UInt8) : String :=
  "invalid escape sequence: \\" ++ String.singleton (Char.ofNat b.toNat)

def charLiteralEnd (text it : Text) : Parsed :=
  match it with
  | [] => ⟨text, [], ["unexpected end of file at char literal"]⟩
  | b :: rest =>
    if b ≠ ascii '\'' then ⟨text, it, ["expected ' at end of char literal"]⟩
    else ⟨text, rest, []⟩

def charLiteralEscape (escaped : UInt8) (it : Text) : Except Fault Parsed :=
  match simpleEscape escaped with
  | some b => return charLiteralEnd [b] it
  | none =>
    if escaped = ascii 'u' then
      if it.length < 4 then return ⟨[], it, ["expected 4 hex digits"]⟩
      else
        match hexCode (it.take 4) 0 0 with
        | .error i => return ⟨[], it.drop i, ["expected hex number"]⟩
        | .ok code => return charLiteralEnd (pushCharToUTF8String code []) (it.drop 4)
    else do
      let next ← peek it 0
      return ⟨[], it, [invalidEscapeMessage next]⟩

/-- `ParseCharLiteral`, with the position at the opening quote.  The end is not
tested for after a backslash. -/
def parseCharLiteral (it : Text) : Except Fault Parsed := do
  let it ← advance it 1
  if it = [] then return ⟨[], it, ["unexpected end of file after '"]⟩
  let c ← peek it 0
  if c = ascii '\'' then return ⟨[], it, ["empty char literal"]⟩
  else if c = ascii '\\' then
    let it ← advance it 1
    let escaped ← peek it 0
    let it ← advance it 1
    charLiteralEscape escaped it
  else
    return charLiteralEnd (pushCharToUTF8String (readNextUTF8Char it).1 []) (readNextUTF8Char it).2

def parseStringLoop (text : Text) : Text → Parsed
  | [] => ⟨text, [], []⟩
  | b :: rest =>
    if b = ascii '"' then ⟨text, rest, []⟩
    else if b < 0x20 ∨ b = 0x7F then ⟨text, b :: rest, ["control character inside string"]⟩
    else if b = ascii '\\' then
      match rest with
      | [] => ⟨text, [], []⟩
      | e :: rest' =>
        match simpleEscape e with
        | some c => parseStringLoop (text ++ [c]) rest'
        | none =>
          if e = ascii 'u' then
            match rest' with
            | h1 :: h2 :: h3 :: h4 :: rest'' =>
              match hexCode [h1, h2, h3, h4] 0 0 with
              | .error i => ⟨text, (h1 :: h2 :: h3 :: h4 :: rest'').drop i, ["expected hex number"]⟩
              | .ok code => parseStringLoop (pushCharToUTF8String code text) rest''
            | short => ⟨text, short, ["expected 4 hex digits"]⟩
          else ⟨text, e :: rest', [invalidEscapeMessage e]⟩
    else parseStringLoop (text ++ [b]) rest

/-- `ParseStringImpl`, with the position at the opening quote. -/
def parseStringImpl (it : Text) : Except Fault Parsed := do
  let it ← advance it 1
  return parseStringLoop [] it

/-- The loop of `ParseIdentifier`: the position behind the identifier. -/
def identifierEnd (it : Text) : Text :=
  if _h : it ≠ [] ∧ isIdentifierChar (readNextUTF8Char it).1 = true then
    identifierEnd (readNextUTF8Char it).2
  else it
termination_by it.length
decreasing_by exact readNextUTF8Char_length_lt _h.1

/-- `ParseMacroIdentifier`: the type, and the position behind the identifier. -/
def parseMacroIdentifier (it : Text) : Except Fault (LexemType × Text) := do
  let it ← advance it 1
  if it ≠ [] ∧ isMacroIdentifierStartChar (byteAt it 0) = true then
    let it ← advance it 1
    return (.macroUniqueIdentifier, identifierEnd it)
  else return (.macroIdentifier, identifierEnd it)

def extractIntegerNumberChars (base : Nat) (it : Text) : Text × List String :=
  if it = [] ∨ isDigit base (it.getD 0 0) = false then (it, ["Unexpected end of number"])
  else (it.dropWhile (isDigit base), [])

def baseOfLetter (d : UInt8) : Option Nat :=
  if d = ascii 'b' then some 2
  else if d = ascii 'o' then some 8
  else if d = ascii 'x' then some 16
  else none

def prefixedBase (it : Text) (next : Option UInt8) : Option Nat :=
  if byteAt it 0 = '0'.toNat then next.bind baseOfLetter else none

def fractionalPart (it : Text) : Bool × Text :=
  if it ≠ [] ∧ byteAt it 0 = '.'.toNat then (true, (it.drop 1).dropWhile (isDigit 10))
  else (false, it)

def exponentPart (it : Text) : Bool × Text :=
  if it ≠ [] ∧ (byteAt it 0 = 'e'.toNat ∨ byteAt it 0 = 'E'.toNat) then
    let it := it.drop 1
    let it := if it ≠ [] ∧ (byteAt it 0 = '-'.toNat ∨ byteAt it 0 = '+'.toNat) then it.drop 1 else it
    (true, it.dropWhile (isDigit 10))
  else (false, it)

/-- `ParseNumber`: the type, the position behind the number and the errors. -/
def parseNumber (it : Text) : Except Fault (LexemType × Text × List String) := do
  let next ← peekNext it
  match prefixedBase it next with
  | some base =>
    let it ← advance it 2
    let (end_, errors) := extractIntegerNumberChars base it
    return (.integerNumber, end_, errors)
  | none =>
    let it := it.dropWhile (isDigit 10)
    let (isFractional, it) := fractionalPart it
    let (isExponential, it) := exponentPart it
    return (if isFractional || isExponential then .floatingPointNumber else .integerNumber, it, [])

def skipLineComment (it : Text) : Text :=
  if _h : it ≠ [] ∧ isNewline (readNextUTF8Char it).1 = false then
    skipLineComment (readNextUTF8Char it).2
  else it
termination_by it.length
decreasing_by exact readNextUTF8Char_length_lt _h.1

inductive CommentResult where
  | done (it : Text) (depth line column : Nat)
  | lineLimit (column : Nat)
  | columnLimit (line : Nat)

/-- The source passes the current position as the end of the text, so that only one-byte
symbols are read. -/
def skipSecondNewlineInComment (c : Nat) (it : Text) : Text :=
  if it ≠ [] ∧ isNewlineSequence c (readNextUTF8CharUntil it 0).1 = true then
    (readNextUTF8CharUntil it 0).2
  else it

theorem skipSecondNewlineInComment_length_le (c : Nat) (it : Text) :
    (skipSecondNewlineInComment c it).length ≤ it.length := by
  unfold skipSecondNewlineInComment
  split
  · exact readNextUTF8CharUntil_length_le it 0
  · exact Nat.le_refl _

def skipComment (it : Text) (depth line column : Nat) : CommentResult :=
  if h : it = [] then .done it depth line column
  else if 1 < it.length ∧ byteAt it 0 = '*'.toNat ∧ byteAt it 1 = '/'.toNat then
    if column + 2 > maxColumn then .columnLimit line
    else if depth - 1 = 0 then .done (it.drop 2) 0 line (column + 2)
    else skipComment (it.drop 2) (depth - 1) line (column + 2)
  else if 1 < it.length ∧ byteAt it 0 = '/'.toNat ∧ byteAt it 1 = '*'.toNat then
    if column + 2 > maxColumn then .columnLimit line
    else skipComment (it.drop 2) (depth + 1) line (column + 2)
  else if isNewline (spracheChar (it.getD 0 0)) then
    if line + 1 > maxLine then .lineLimit column
    -- The column is set to zero and then incremented, as for any other character.
    else
      skipComment (skipSecondNewlineInComment (spracheChar (it.getD 0 0)) (it.drop 1)) depth
        (line + 1) 1
  else if column + 1 > maxColumn then .columnLimit line
  else skipComment (readNextUTF8Char it).2 depth line (column + 1)
termination_by it.length
decreasing_by
  all_goals have hpos := length_pos_iff.2 h
  · rw [length_drop]; omega
  · rw [length_drop]; omega
  · refine Nat.lt_of_le_of_lt (skipSecondNewlineInComment_length_le _ _) ?_
    rw [length_drop]
    omega
  · exact readNextUTF8Char_length_lt h

inductive ElementKind where
  | lineComment
  | comment
  | newline
  | whitespace
  | string
  | charLiteral
  | number
  | identifier
  | macroIdentifier
  | fixed
deriving DecidableEq

def startsMacroIdentifier (it : Text) (next : Option UInt8) : Bool :=
  isMacroIdentifierStartChar (getUTF8FirstChar it) &&
    next.isSome && next != some (ascii '>') &&
    (isIdentifierChar (getUTF8FirstChar (it.drop 1)) ||
      isMacroIdentifierStartChar (getUTF8FirstChar (it.drop 1)))

/-- The branches of the main loop, with the byte behind the current one if there is
one. -/
def elementKind (it : Text) (next : Option UInt8) : ElementKind :=
  let c := getUTF8FirstChar it
  if c = '/'.toNat ∧ next = some (ascii '/') then .lineComment
  else if c = '/'.toNat ∧ next = some (ascii '*') then .comment
  else if isNewline c then .newline
  else if isWhitespace c then .whitespace
  else if c = '"'.toNat then .string
  else if c = '\''.toNat then .charLiteral
  else if isNumberStartChar c then .number
  else if isIdentifierStartChar c then .identifier
  else if startsMacroIdentifier it next then .macroIdentifier
  else .fixed

/-- `AdvanceIteratorAndCountCodePoints`, for the bytes between two positions. -/
def countCodePoints (s : Text) : Nat :=
  if _h : s ≠ [] then countCodePoints (readNextUTF8Char s).2 + 1 else 0
termination_by s.length
decreasing_by exact readNextUTF8Char_length_lt _h

def lineLimitMessage : String :=
  "Lexical error: line limit reached, max is " ++ toString maxLine ++ "."

def columnLimitMessage : String :=
  "Lexical error: column limit reached, max is " ++ toString maxColumn ++ "."

structure LexState where
  it : Text
  line : Nat
  column : Nat
  lexems : List Lexem
  errors : List LexSyntError
deriving DecidableEq

/-- The end of a turn of the main loop: the next turn, or the return of the
result. -/
inductive StepResult where
  | next (st : LexState)
  | stop (st : LexState)

def StepResult.state : StepResult → LexState
  | next st => st
  | stop st => st

namespace LexState

variable (st : LexState)

def srcLoc : SrcLoc := ⟨st.line, st.column⟩

def addErrors (texts : List String) : LexState :=
  { st with errors := st.errors ++ texts.map (⟨·, st.srcLoc⟩) }

/-- The error `CHECK_RETURN_COLUMN_LIMIT` returns with. -/
def columnLimit : LexState :=
  { st with errors := st.errors ++ [⟨columnLimitMessage, ⟨st.line, maxColumn⟩⟩] }

def lineLimit (column : Nat) : LexState :=
  { st with errors := st.errors ++ [⟨lineLimitMessage, ⟨maxLine, column⟩⟩] }

/-- The lexem from the current position up to `it'` is added and the column moves
by its code points.  `size` is the size of the program text. -/
def pushLexem (size : Nat) (st : LexState) (type : LexemType) (text it' : Text) : StepResult :=
  let lexem : Lexem := ⟨text, st.srcLoc, type, size - st.it.length⟩
  let column := toUInt32 (st.column + countCodePoints (consumed st.it it'))
  let st := { st with it := it', column := column }
  if column > maxColumn then .stop st.columnLimit
  else .next { st with lexems := st.lexems ++ [lexem] }

def pushLiteral (size : Nat) (st : LexState) (type : LexemType) (text it' : Text) : StepResult :=
  match st.pushLexem size type text it' with
  | .stop st => .stop st
  | .next st =>
    if isIdentifierStartChar (getUTF8FirstChar it') then
      let suffixEnd := identifierEnd it'
      st.pushLexem size .literalSuffix (consumed it' suffixEnd) suffixEnd
    else .next st

def commentStep : Except Fault StepResult := do
  let it ← advance st.it 2
  if st.column + 2 > maxColumn then return .stop st.columnLimit
  else
    match skipComment it 1 st.line (st.column + 2) with
    | .lineLimit column => return .stop (st.lineLimit column)
    | .columnLimit line => return .stop { st with line := line }.columnLimit
    | .done it depth line column =>
      let st := { st with it := it, line := line, column := column }
      return .next (if depth = 0 then st else st.addErrors ["Lexical error: expected */"])

def newlineStep (c : Nat) : StepResult :=
  if st.line + 1 > maxLine then .stop (st.lineLimit st.column)
  else
    .next { st with
      it := skipSecondNewline c (readNextUTF8Char st.it).2
      line := st.line + 1
      column := 0 }

def whitespaceStep : Except Fault StepResult := do
  let it ← advance st.it 1
  let st := { st with it := it, column := st.column + 1 }
  if st.column > maxColumn then return .stop st.columnLimit else return .next st

def fixedLexemStep (size : Nat) (st : LexState) (c : Nat) : Except Fault StepResult := do
  match findFixedLexem st.it (min maxFixedLexemSize st.it.length) with
  | some (type, s) =>
    let it ← advance st.it s
    return st.pushLexem size type (st.it.take s) it
  | none =>
    let it ← advance st.it 1
    return .next { st.addErrors ["Lexical error: unrecognized character: " ++ toString c] with
      it := it }

def step (size : Nat) (st : LexState) : Except Fault StepResult := do
  let c := getUTF8FirstChar st.it
  let next ← peekNext st.it
  match elementKind st.it next with
  | .lineComment => return .next { st with it := skipLineComment st.it }
  | .comment => st.commentStep
  | .newline => return st.newlineStep c
  | .whitespace => st.whitespaceStep
  | .string =>
    let parsed ← parseStringImpl st.it
    return (st.addErrors parsed.errors).pushLiteral size .string parsed.text parsed.it
  | .charLiteral =>
    let parsed ← parseCharLiteral st.it
    return (st.addErrors parsed.errors).pushLiteral size .charLiteral parsed.text parsed.it
  | .number =>
    let (type, end_, errors) ← parseNumber st.it
    return (st.addErrors errors).pushLiteral size type (consumed st.it end_) end_
  | .identifier =>
    let end_ := identifierEnd st.it
    return st.pushLexem size .identifier (consumed st.it end_) end_
  | .macroIdentifier =>
    let (type, end_) ← parseMacroIdentifier st.it
    return st.pushLexem size type (consumed st.it end_) end_
  | .fixed => st.fixedLexemStep size c

def finish (size : Nat) (st : LexState) : LexState := { st with
    lexems := st.lexems ++ [⟨asciiText "EOF", st.srcLoc, .endOfFile, size - st.it.length⟩] }

def loop (size : Nat) : Nat → LexState → Except Fault LexState
  | 0, st => if st.it = [] then .ok (st.finish size) else .error .outOfFuel
  | fuel + 1, st =>
    if st.it = [] then .ok (st.finish size)
    else
      match st.step size with
      | .error fault => .error fault
      | .ok (.stop st) => .ok st
      | .ok (.next st) => loop size fuel st

/-- The state before the first turn, behind the byte order mark. -/
def start (text : Text) : LexState where
  it := if [0xEF, 0xBB, 0xBF] <+: text then text.drop 3 else text
  line := 1
  column := 0
  lexems := []
  errors := []

end LexState

/-- `LexicalAnalysis`, with a bound on the turns of its main loop.  The result is
the lexems and errors of the last state. -/
def lexicalAnalysis (fuel : Nat) (text : Text) : Except Fault LexState :=
  LexState.loop text.length fuel (LexState.start text)

end USprache.LexSynt
