import USprache.LexSynt.ProgramString

/-!
# Lexems

The kinds of lexems, the table of lexems with a fixed text, source locations and
errors.
-/

namespace USprache.LexSynt

inductive LexemType where
  | none
  | identifier
  | macroIdentifier
  | macroUniqueIdentifier
  | string
  | charLiteral
  | integerNumber
  | floatingPointNumber
  | literalSuffix
  | bracketLeft
  | bracketRight
  | squareBracketLeft
  | squareBracketRight
  | braceLeft
  | braceRight
  | templateBracketLeft
  | templateBracketRight
  | macroBracketLeft
  | macroBracketRight
  | doubleColon
  | comma
  | dot
  | colon
  | semicolon
  | question
  | equal
  | plus
  | minus
  | asterisk
  | slash
  | percent
  | ampersand
  | pipe
  | caret
  | tilde
  | exclamation
  | at
  | doublePlus
  | doubleMinus
  | less
  | greater
  | doubleEqual
  | exclamationEqual
  | lessEqual
  | greaterEqual
  | lessEqualGreater
  | doubleAmpersand
  | doublePipe
  | plusEqual
  | minusEqual
  | asteriskEqual
  | slashEqual
  | percentEqual
  | ampersandEqual
  | pipeEqual
  | caretEqual
  | doubleLess
  | doubleGreater
  | doubleLessEqual
  | doubleGreaterEqual
  | minusGreater
  | dollar
  | dollarLess
  | dollarGreater
  | ellipsis
  | completionIdentifier
  | completionScope
  | completionDot
  | signatureHelpBracketLeft
  | signatureHelpComma
  | endOfFile
deriving DecidableEq

/-- Line and column of a location.  Lines are counted from one, columns from
zero, in code points. -/
structure SrcLoc where
  line : Nat
  column : Nat
deriving DecidableEq

def maxLine : Nat := 2 ^ 18 - 1

def maxColumn : Nat := 2 ^ 14 - 1

structure LexSyntError where
  text : String
  srcLoc : SrcLoc
deriving DecidableEq

/-- A lexem.  `start` is not in the source: it is the byte offset at which the
lexem starts in the program text. -/
structure Lexem where
  text : Text
  srcLoc : SrcLoc
  type : LexemType
  start : Nat
deriving DecidableEq

/-- `g_fixed_lexems[ s ]`. -/
def fixedLexems : Nat → List (Text × LexemType)
  | 1 =>
    [(asciiText "(", .bracketLeft), (asciiText ")", .bracketRight),
      (asciiText "[", .squareBracketLeft),
      (asciiText "]", .squareBracketRight),
      (asciiText "\x7b", .braceLeft),
      (asciiText "\x7d", .braceRight),
      (asciiText ",", .comma),
      (asciiText ".", .dot),
      (asciiText ":", .colon),
      (asciiText ";", .semicolon),
      (asciiText "?", .question),
      (asciiText "=", .equal),
      (asciiText "+", .plus),
      (asciiText "-", .minus),
      (asciiText "*", .asterisk),
      (asciiText "/", .slash),
      (asciiText "%", .percent),
      (asciiText "<", .less),
      (asciiText ">", .greater),
      (asciiText "&", .ampersand),
      (asciiText "|", .pipe),
      (asciiText "^", .caret),
      (asciiText "~", .tilde),
      (asciiText "!", .exclamation),
      (asciiText "@", .at),
      (asciiText "$", .dollar)]
  | 2 =>
    [(asciiText "</", .templateBracketLeft), (asciiText "/>", .templateBracketRight),
      (asciiText "<?", .macroBracketLeft),
      (asciiText "?>", .macroBracketRight),
      (asciiText "::", .doubleColon),
      (asciiText "++", .doublePlus),
      (asciiText "--", .doubleMinus),
      (asciiText "==", .doubleEqual),
      (asciiText "!=", .exclamationEqual),
      (asciiText "<=", .lessEqual),
      (asciiText ">=", .greaterEqual),
      (asciiText "&&", .doubleAmpersand),
      (asciiText "||", .doublePipe),
      (asciiText "+=", .plusEqual),
      (asciiText "-=", .minusEqual),
      (asciiText "*=", .asteriskEqual),
      (asciiText "/=", .slashEqual),
      (asciiText "%=", .percentEqual),
      (asciiText "&=", .ampersandEqual),
      (asciiText "|=", .pipeEqual),
      (asciiText "^=", .caretEqual),
      (asciiText "<<", .doubleLess),
      (asciiText ">>", .doubleGreater),
      (asciiText "->", .minusGreater),
      (asciiText "$<", .dollarLess),
      (asciiText "$>", .dollarGreater)]
  | 3 =>
    [(asciiText "<=>", .lessEqualGreater), (asciiText "<<=", .doubleLessEqual),
      (asciiText ">>=", .doubleGreaterEqual),
      (asciiText "...", .ellipsis)]
  | _ => []

def maxFixedLexemSize : Nat := 3

/-- The longest fixed lexem of at most the given size at a position, with its
size. -/
def findFixedLexem (it : Text) : Nat → Option (LexemType × Nat)
  | 0 => none
  | s + 1 =>
    match (fixedLexems (s + 1)).lookup (it.take (s + 1)) with
    | some type => some (type, s + 1)
    | none => findFixedLexem it s

end USprache.LexSynt
