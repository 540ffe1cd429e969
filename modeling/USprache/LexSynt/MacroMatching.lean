import USprache.LexSynt.MacroDefinition

/-!
# Matching of macro calls

`MatchMacroBlock` goes through the elements of a match template.  The loop of a repeated block
ends at the lexem that decides about its turns, or where a separator is missing, or at the end of
the file; its turns are counted by a bound.
-/

namespace USprache.LexSynt

open Macro

namespace ParserState

variable (st : ParserState)

def it : Lexem := st.lexems.headD eofLexem

/-- What is left to be parsed: the lexems, and the errors that are reported at the first of them
before it is skipped. -/
def left : Nat :=
  if st.notEndOfFile then
    13 * st.lexems.length +
      if st.lexems.length = st.lastErrorIt then 11 - st.lastErrorRepeats else 12
  else 0

variable {st}

theorem left_pos (h : st.notEndOfFile = true) : 0 < st.left := by
  have hlen : 1 < st.lexems.length := of_decide_eq_true h
  rw [left, if_pos h]
  omega

theorem left_eq_zero (h : st.notEndOfFile = false) : st.left = 0 := by
  rw [left, h]
  rfl

theorem nextLexem_of_end (h : st.notEndOfFile = false) : st.nextLexem = st := by
  rw [nextLexem, h]
  rfl

theorem left_nextLexem_lt (h : st.notEndOfFile = true) : st.nextLexem.left < st.left := by
  have hlen : 1 < st.lexems.length := of_decide_eq_true h
  have hnx : st.nextLexem = { st with lexems := st.lexems.tail } := by rw [nextLexem, if_pos h]
  have htl : st.nextLexem.lexems.length = st.lexems.length - 1 := by
    rw [hnx]
    exact List.length_tail
  rw [left, left]
  split_ifs <;> omega

theorem left_nextLexem_le : st.nextLexem.left ≤ st.left := by
  cases h : st.notEndOfFile with
  | true => exact (left_nextLexem_lt h).le
  | false => rw [nextLexem_of_end h]

/-- An error message is progress: after some of them the lexem is skipped. -/
theorem left_pushErrorMessage_lt (it : Lexem) (h : st.notEndOfFile = true) :
    (st.pushErrorMessage it).left < st.left := by
  have hlen : 1 < st.lexems.length := of_decide_eq_true h
  unfold pushErrorMessage addError nextLexem left notEndOfFile
  dsimp only
  split_ifs <;> simp only [List.length_tail, decide_eq_true_eq, not_true_eq_false] at * <;> omega

end ParserState

namespace Macro

/-- The lexem of the first element: of repeated blocks the separator, and of other elements that
are not for a lexem none. -/
def MatchElements.elementLexem : MatchElements → Option Lexem
  | .nil => none
  | .lexem it _ => some it
  | .repeated _ _ separator _ _ => some separator
  | .identifier .. | .parsed .. | .optional .. => some eofLexem

def blockTest (check : BlockCheckLexemKind) (subElements rest : MatchElements) :
    Option (Lexem → Bool) :=
  match check with
  | .lexemAfterBlockEnd => rest.elementLexem.map fun terminator it => !sameLexem it terminator
  | .lexemAtBlockStart => subElements.elementLexem.map fun checkLexem it => sameLexem it checkLexem

end Macro

/-- The methods for the elements that are parsed, with `true` for an empty expression, and none if
a method does not return.  All of them take a lexem or call `PushErrorMessage`. -/
structure ElementParsers where
  parse : ParsedKind → ParserState → Option (Bool × ParserState)
  left_lt : ∀ kind st empty st', parse kind st = some (empty, st') → st.notEndOfFile = true →
    st'.left < st.left
  left_le : ∀ kind st empty st', parse kind st = some (empty, st') → st'.left ≤ st.left

section Match

variable (parsers : ElementParsers) (macroName : Text)

def ParserState.pushMacroError (st : ParserState) : ParserState :=
  st.addError ("Unexpected lexem - \"" ++ messageText st.it.text ++ "\". (In expansion of macro \"" ++
    messageText macroName ++ "\")") st.it.srcLoc

inductive TurnEnd where
  | again (st : ParserState)
  | done (st : ParserState)
  | error (st : ParserState)

def behindTurn (takesTurn : Lexem → Bool) (separator : Lexem) (st : ParserState) : TurnEnd :=
  if separator.type ≠ .endOfFile then
    if sameLexem st.it separator then
      if takesTurn st.nextLexem.it then .again st.nextLexem
      else .error (st.nextLexem.pushMacroError macroName)
    else .done st
  else .again st

/-- The loop of a repeated block.  The result is `false` where the error is. -/
def matchTurns (matchBlock : ParserState → Option (VariablesMap × ParserState))
    (takesTurn : Lexem → Bool) (separator : Lexem) :
    Nat → List VariablesMap → ParserState → Option (Bool × List VariablesMap × ParserState)
  | 0, _, _ => none
  | fuel + 1, maps, st =>
    if !st.notEndOfFile then some (true, maps, st)
    else if !takesTurn st.it then some (true, maps, st)
    else
      match matchBlock st with
      | none => none
      | some (variables_, st) =>
        match behindTurn macroName takesTurn separator st with
        | .again st => matchTurns matchBlock takesTurn separator fuel (maps ++ [variables_]) st
        | .done st => some (true, maps ++ [variables_], st)
        | .error st => some (false, maps ++ [variables_], st)

def parsedElement (begin_ end_ : ParserState) (subElements : List VariablesMap)
    (kind : MatchElementKind) : ParsedElement :=
  .mk (begin_.lexems.take (begin_.lexems.length - end_.lexems.length)) subElements kind
    (decide (kind = .expression))

def takesBlock (check : BlockCheckLexemKind) (subElements rest : MatchElements) (it : Lexem) : Bool :=
  match blockTest check subElements rest with
  | some takes => takes it
  | none => true

def matchMacroBlock (fuel : Nat) :
    MatchElements → VariablesMap → ParserState → Option (VariablesMap × ParserState)
  | .nil, out, st => some (out, st)
  | .lexem lexem rest, out, st =>
    if sameLexem st.it lexem then
      matchMacroBlock fuel rest (([], parsedElement st st.nextLexem [] .lexem) :: out) st.nextLexem
    else some (out, st.pushMacroError macroName)
  | .identifier name rest, out, st =>
    if st.it.type = .identifier then
      matchMacroBlock fuel rest ((name, parsedElement st st.nextLexem [] .identifier) :: out)
        st.nextLexem
    else some (out, st.pushMacroError macroName)
  | .parsed name kind rest, out, st =>
    match parsers.parse kind st with
    | none => none
    | some (empty, st') =>
      if kind = .expression ∧ empty = true then some (out, st'.pushMacroError macroName)
      else
        matchMacroBlock fuel rest ((name, parsedElement st st' [] kind.elementKind) :: out) st'
  | .optional name check subElements rest, out, st =>
    if takesBlock check subElements rest st.it then
      match matchMacroBlock fuel subElements [] st with
      | none => none
      | some (variables_, st') =>
        matchMacroBlock fuel rest ((name, parsedElement st st' [variables_] .optional) :: out) st'
    else matchMacroBlock fuel rest ((name, parsedElement st st [] .optional) :: out) st
  | .repeated name check separator subElements rest, out, st =>
    match blockTest check subElements rest with
    | none => matchMacroBlock fuel rest ((name, parsedElement st st [] .repeated) :: out) st
    | some takesTurn =>
      match matchTurns macroName (matchMacroBlock fuel subElements []) takesTurn separator fuel []
        st with
      | none => none
      | some (false, _, st') => some (out, st')
      | some (true, maps, st') =>
        matchMacroBlock fuel rest ((name, parsedElement st st' maps .repeated) :: out) st'

end Match

end USprache.LexSynt
