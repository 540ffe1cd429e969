import USprache.Ustlib.FloatText

/-!
# The grammar of floating-point numbers

What the parser takes from the start of a range, beside the longest text of the form
`-?digits(.digits)?([eE][+-]?digits)?` there.  A point or an exponent letter with no digit behind it
is not left in the range: it is taken as well, or nothing is parsed where the range ends.
-/

namespace USprache.Ustlib.FloatParsing

open CharType NumberParsing List Option

variable {C : Type} [CharType C] {s range rest : List C}

/-! ## Numbers at the start of a range -/

def startsWithDigit : List C → Bool
  | [] => false
  | c :: _ => isDigit c

def behindSign : List C → List C
  | [] => []
  | c :: rest => if toNat c = minusChar then rest else if toNat c = 43 then rest else c :: rest

/-- Behind `(.digits)?` -/
def behindFraction : List C → List C
  | [] => []
  | c :: rest => if toNat c = 46 ∧ startsWithDigit rest then rest.dropWhile isDigit else c :: rest

def PointHasDigit : List C → Prop
  | [] => True
  | c :: rest => toNat c = 46 → startsWithDigit rest

def ExponentHasDigit : List C → Prop
  | [] => True
  | c :: rest => toLower c = 101 → startsWithDigit (behindSign rest)

/-- A digit stands behind a point that follows the integer part and behind an exponent letter, with
its sign, that follows the number. -/
def Complete (s : List C) : Prop :=
  startsWithDigit s → PointHasDigit (s.dropWhile isDigit) ∧
    ExponentHasDigit (behindFraction (s.dropWhile isDigit))

/-! ## The scanned text -/

variable {FP : FloatProperties} {size : SizeType} {sign : Nat} {parts : Parts C}

variable {result : Option Nat × List C}

end USprache.Ustlib.FloatParsing
