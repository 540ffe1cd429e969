import USprache.LexSynt.MacroMatching

/-!
# Endless matching of macros

A turn of a repeated block that takes no lexem and calls no parser is repeated for ever, unless a
separator is missing behind it.  This happens where the block stalls at a lexem that is not the
one behind the block; without such turns the matching ends.
-/

namespace USprache.LexSynt

open Macro Option Bool Nat ParserState Prod

variable {parsers : ElementParsers} {macroName : Text}

/-! ## Turns -/

def takesTurnAt (takesTurn : Lexem → Bool) (st : ParserState) : Bool :=
  st.notEndOfFile && takesTurn st.it

def TurnEnd.state : TurnEnd → ParserState
  | again st => st
  | done st => st
  | error st => st

section Turns

variable {matchBlock : ParserState → Option (VariablesMap × ParserState)}
  {takesTurn : Lexem → Bool} {separator : Lexem} {fuel : Nat} {maps : List VariablesMap}
  {st : ParserState} {result : Bool × List VariablesMap × ParserState}

theorem matchTurns_end (h : takesTurnAt takesTurn st = false) :
    matchTurns macroName matchBlock takesTurn separator (fuel + 1) maps st =
      some (true, maps, st) := by
  rw [matchTurns]
  unfold takesTurnAt at h
  cases hmo : st.notEndOfFile with
  | false => rfl
  | true =>
    rw [hmo, Bool.true_and] at h
    rw [h]
    rfl

theorem matchTurns_turn (h : takesTurnAt takesTurn st = true) :
    matchTurns macroName matchBlock takesTurn separator (fuel + 1) maps st =
      match matchBlock st with
      | none => none
      | some (variables_, st) =>
        match behindTurn macroName takesTurn separator st with
        | .again st =>
          matchTurns macroName matchBlock takesTurn separator fuel (maps ++ [variables_]) st
        | .done st => some (true, maps ++ [variables_], st)
        | .error st => some (false, maps ++ [variables_], st) := by
  obtain ⟨hmo, htk⟩ := and_eq_true_iff.1 h
  rw [matchTurns, hmo, htk]
  rfl

inductive BehindTurn (macroName : Text)
    (matchBlock : ParserState → Option (VariablesMap × ParserState)) (takesTurn : Lexem → Bool)
    (separator : Lexem) (fuel : Nat) (maps : List VariablesMap) :
    TurnEnd → Bool × List VariablesMap × ParserState → Prop
  | again {st : ParserState} {result : Bool × List VariablesMap × ParserState}
      (h : matchTurns macroName matchBlock takesTurn separator fuel maps st = some result) :
      BehindTurn macroName matchBlock takesTurn separator fuel maps (.again st) result
  | done {st : ParserState} :
      BehindTurn macroName matchBlock takesTurn separator fuel maps (.done st) (true, maps, st)
  | error {st : ParserState} :
      BehindTurn macroName matchBlock takesTurn separator fuel maps (.error st) (false, maps, st)

variable {matchBlk' : ParserState → Option (VariablesMap × ParserState)}

theorem BehindTurn.mono {fuel' : Nat} {end_ : TurnEnd}
    (hmo : ∀ st, matchTurns macroName matchBlock takesTurn separator fuel maps st = some result →
      matchTurns macroName matchBlk' takesTurn separator fuel' maps st = some result)
    (h : BehindTurn macroName matchBlock takesTurn separator fuel maps end_ result) :
    BehindTurn macroName matchBlk' takesTurn separator fuel' maps end_ result := by
  cases h with
  | again h => exact .again (hmo _ h)
  | done => exact .done
  | error => exact .error

theorem BehindTurn.left_le {end_ : TurnEnd}
    (hmo : ∀ st, matchTurns macroName matchBlock takesTurn separator fuel maps st = some result →
      result.2.2.left ≤ st.left)
    (h : BehindTurn macroName matchBlock takesTurn separator fuel maps end_ result) :
    result.2.2.left ≤ end_.state.left := by
  cases h with
  | again h => exact hmo _ h
  | done | error => exact le_rfl

theorem matchTurns_cases (h : matchTurns macroName matchBlock takesTurn separator fuel maps st =
    some result) :
    (takesTurnAt takesTurn st = false ∧ result = (true, maps, st)) ∨
      ∃ fuel' vs st1, fuel = fuel' + 1 ∧ takesTurnAt takesTurn st = true ∧
        matchBlock st = some (vs, st1) ∧
        BehindTurn macroName matchBlock takesTurn separator fuel' (maps ++ [vs])
          (behindTurn macroName takesTurn separator st1) result := by
  cases fuel with
  | zero => cases h
  | succ fuel =>
    cases htk : takesTurnAt takesTurn st with
    | false =>
      rw [matchTurns_end htk] at h
      exact .inl ⟨rfl, (some.inj h).symm⟩
    | true =>
      rw [matchTurns_turn htk] at h
      split at h
      · cases h
      · next vs st1 hbl =>
        refine .inr ⟨fuel, vs, st1, rfl, rfl, hbl, ?_⟩
        split at h
        · next hbh =>
          rw [hbh]
          exact .again h
        · next hbh =>
          rw [hbh, ← some.inj h]
          exact .done
        · next hbh =>
          rw [hbh, ← some.inj h]
          exact .error

theorem matchTurns_of_behindTurn {vs : VariablesMap} {st1 : ParserState}
    (htk : takesTurnAt takesTurn st = true) (hbl : matchBlock st = some (vs, st1))
    (h : BehindTurn macroName matchBlock takesTurn separator fuel (maps ++ [vs])
      (behindTurn macroName takesTurn separator st1) result) :
    matchTurns macroName matchBlock takesTurn separator (fuel + 1) maps st = some result := by
  rw [matchTurns_turn htk, hbl]
  dsimp only
  cases hbh : behindTurn macroName takesTurn separator st1 with
  | again st2 =>
    rw [hbh] at h
    cases h with
    | again h => exact h
  | done st2 | error st2 =>
    rw [hbh] at h
    cases h
    rfl

theorem matchTurns_mono
    (hbl : ∀ st result, matchBlock st = some result → matchBlk' st = some result)
    {fuel' : Nat} (hle : fuel ≤ fuel')
    (h : matchTurns macroName matchBlock takesTurn separator fuel maps st = some result) :
    matchTurns macroName matchBlk' takesTurn separator fuel' maps st = some result := by
  induction fuel generalizing fuel' maps st with
  | zero => cases h
  | succ fuel ih =>
    obtain ⟨rest, rfl⟩ := Nat.exists_eq_add_of_lt (lt_of_succ_le hle)
    rcases matchTurns_cases h with ⟨htk, rfl⟩ | ⟨_, variables_, st1, hf, htk, hst1, hbh⟩
    · exact matchTurns_end htk
    · obtain rfl := succ_inj.1 hf
      exact matchTurns_of_behindTurn htk (hbl _ _ hst1) (hbh.mono fun st h => ih (by omega) h)

theorem left_pushMacroError (st : ParserState) : (st.pushMacroError macroName).left = st.left := rfl

theorem left_behindTurn (macroName : Text) (takesTurn : Lexem → Bool) (separator : Lexem)
    (st : ParserState) :
    (behindTurn macroName takesTurn separator st).state.left ≤ st.left := by
  unfold behindTurn
  split_ifs
  · exact st.left_nextLexem_le
  · exact st.left_nextLexem_le
  · exact le_rfl
  · exact le_rfl

theorem left_matchTurns (hbl : ∀ st result, matchBlock st = some result → result.2.left ≤ st.left)
    (h : matchTurns macroName matchBlock takesTurn separator fuel maps st = some result) :
    result.2.2.left ≤ st.left := by
  induction fuel generalizing maps st with
  | zero => cases h
  | succ fuel ih =>
    rcases matchTurns_cases h with ⟨-, rfl⟩ | ⟨_, vs, st1, hf, htk, hst1, hbh⟩
    · exact le_rfl
    · obtain rfl := succ_inj.1 hf
      exact (hbh.left_le fun st h => ih h).trans
        ((left_behindTurn macroName takesTurn separator st1).trans (hbl _ _ hst1))

end Turns

/-! ## Calls that return -/

section Returns

variable (parsers) (macroName) (fuel : Nat)

/-- A call of `MatchMacroBlock` that returns, by the branch it takes. -/
inductive Matched : MatchElements → VariablesMap → ParserState → VariablesMap × ParserState → Prop
  | nil {out st} : Matched .nil out st (out, st)
  | lexem {lexem rest out st result} (hlexem : sameLexem st.it lexem = true)
      (hrest : Matched rest (([], parsedElement st st.nextLexem [] .lexem) :: out) st.nextLexem
        result) : Matched (.lexem lexem rest) out st result
  | lexemError {lexem rest out st} (hlexem : ¬sameLexem st.it lexem = true) :
      Matched (.lexem lexem rest) out st (out, st.pushMacroError macroName)
  | identifier {name rest out st result} (hidentifier : st.it.type = .identifier)
      (hrest : Matched rest ((name, parsedElement st st.nextLexem [] .identifier) :: out)
        st.nextLexem result) : Matched (.identifier name rest) out st result
  | identifierError {name rest out st} (hidentifier : ¬st.it.type = .identifier) :
      Matched (.identifier name rest) out st (out, st.pushMacroError macroName)
  | parsed {name kind rest out st empty st' result}
      (hparse : parsers.parse kind st = some (empty, st'))
      (hempty : ¬(kind = .expression ∧ empty = true))
      (hrest : Matched rest ((name, parsedElement st st' [] kind.elementKind) :: out) st' result) :
      Matched (.parsed name kind rest) out st result
  | parsedError {name kind rest out st empty st'}
      (hparse : parsers.parse kind st = some (empty, st'))
      (hempty : kind = .expression ∧ empty = true) :
      Matched (.parsed name kind rest) out st (out, st'.pushMacroError macroName)
  | optional {name check subElements rest out st variables_ st' result}
      (htakes : takesBlock check subElements rest st.it = true)
      (hblock : Matched subElements [] st (variables_, st'))
      (hrest : Matched rest ((name, parsedElement st st' [variables_] .optional) :: out) st'
        result) : Matched (.optional name check subElements rest) out st result
  | skipped {name check subElements rest out st result}
      (htakes : ¬takesBlock check subElements rest st.it = true)
      (hrest : Matched rest ((name, parsedElement st st [] .optional) :: out) st result) :
      Matched (.optional name check subElements rest) out st result
  | repeated {name check separator subElements rest out st takesTurn maps st' result}
      (htest : blockTest check subElements rest = some takesTurn)
      (hblock : ∀ st result, matchMacroBlock parsers macroName fuel subElements [] st =
        some result → Matched subElements [] st result)
      (hturns : matchTurns macroName (matchMacroBlock parsers macroName fuel subElements [])
        takesTurn separator fuel [] st = some (true, maps, st'))
      (hrest : Matched rest ((name, parsedElement st st' maps .repeated) :: out) st' result) :
      Matched (.repeated name check separator subElements rest) out st result
  | repeatedError {name check separator subElements rest out st takesTurn maps st'}
      (htest : blockTest check subElements rest = some takesTurn)
      (hblock : ∀ st result, matchMacroBlock parsers macroName fuel subElements [] st =
        some result → Matched subElements [] st result)
      (hturns : matchTurns macroName (matchMacroBlock parsers macroName fuel subElements [])
        takesTurn separator fuel [] st = some (false, maps, st')) :
      Matched (.repeated name check separator subElements rest) out st (out, st')
  | untested {name check separator subElements rest out st result}
      (htest : blockTest check subElements rest = none)
      (hrest : Matched rest ((name, parsedElement st st [] .repeated) :: out) st result) :
      Matched (.repeated name check separator subElements rest) out st result

variable {parsers macroName fuel} {elements : MatchElements} {out : VariablesMap} {st : ParserState}
  {result : VariablesMap × ParserState}

theorem matched_of_returns (h : matchMacroBlock parsers macroName fuel elements out st = some result) :
    Matched parsers macroName fuel elements out st result := by
  induction elements generalizing out st result with
  | nil =>
    cases h
    exact .nil
  | lexem it r ih =>
    rw [matchMacroBlock] at h
    split at h
    · next heq => exact .lexem heq (ih h)
    · next heq =>
      cases h
      exact .lexemError heq
  | identifier n r ih =>
    rw [matchMacroBlock] at h
    split at h
    · next hid => exact .identifier hid (ih h)
    · next hid =>
      cases h
      exact .identifierError hid
  | parsed n kind r ih =>
    rw [matchMacroBlock] at h
    split at h
    · cases h
    · next hpa =>
      split at h
      · next he =>
        cases h
        exact .parsedError hpa he
      · next he => exact .parsed hpa he (ih h)
  | optional n check subElements r ihS ih =>
    rw [matchMacroBlock] at h
    split at h
    · next htk =>
      split at h
      · cases h
      · next hbl => exact .optional htk (ihS hbl) (ih h)
    · next htk => exact .skipped htk (ih h)
  | repeated n check separator subElements r ihS ih =>
    rw [matchMacroBlock] at h
    split at h
    · next htest => exact .untested htest (ih h)
    · next htest =>
      split at h
      · cases h
      · next htns =>
        cases h
        exact .repeatedError htest (fun _ _ h => ihS h) htns
      · next htns => exact .repeated htest (fun _ _ h => ihS h) htns (ih h)

/-- A call returns with any larger bound as well. -/
theorem Matched.returns {fuel' : Nat} (h : Matched parsers macroName fuel elements out st result)
    (hle : fuel ≤ fuel') : matchMacroBlock parsers macroName fuel' elements out st = some result := by
  induction h with
  | nil => rfl
  | lexem h _ ih | identifier h _ ih => rw [matchMacroBlock, if_pos h, ih]
  | lexemError h | identifierError h => rw [matchMacroBlock, if_neg h]
  | parsed hpa he _ ih => simp only [matchMacroBlock, hpa, if_neg he, ih]
  | parsedError hpa he => simp only [matchMacroBlock, hpa, if_pos he]
  | optional htk _ _ ihS ih => simp only [matchMacroBlock, if_pos htk, ihS, ih]
  | skipped htk _ ih => rw [matchMacroBlock, if_neg htk, ih]
  | repeated htest _ htns _ ihS ih =>
    simp only [matchMacroBlock, htest, matchTurns_mono ihS hle htns, ih]
  | repeatedError htest _ htns ihS =>
    simp only [matchMacroBlock, htest, matchTurns_mono ihS hle htns]
  | untested htest _ ih => simp only [matchMacroBlock, htest, ih]

theorem matchMacroBlock_mono {fuel' : Nat} (hle : fuel ≤ fuel')
    (h : matchMacroBlock parsers macroName fuel elements out st = some result) :
    matchMacroBlock parsers macroName fuel' elements out st = some result :=
  (matched_of_returns h).returns hle

theorem Matched.left_le (h : Matched parsers macroName fuel elements out st result) :
    result.2.left ≤ st.left := by
  induction h with
  | nil | lexemError | identifierError => exact le_rfl
  | lexem _ _ ih | identifier _ _ ih => exact ih.trans left_nextLexem_le
  | parsed hpa _ _ ih => exact ih.trans (parsers.left_le _ _ _ _ hpa)
  | parsedError hpa _ =>
    exact (left_pushMacroError _).trans_le (parsers.left_le _ _ _ _ hpa)
  | optional _ _ _ ihS ih => exact ih.trans ihS
  | skipped _ _ ih | untested _ _ ih => exact ih
  | repeated _ _ htns _ ihS ih => exact ih.trans (left_matchTurns ihS htns)
  | repeatedError _ _ htns ihS => exact left_matchTurns ihS htns

theorem left_matchMacroBlock (h : matchMacroBlock parsers macroName fuel elements out st = some result) :
    result.2.left ≤ st.left :=
  (matched_of_returns h).left_le

end Returns

/-! ## Blocks that stall -/

/-- At the lexem the block comes to its end or to an error, with nothing taken or parsed. -/
def stalls : MatchElements → Lexem → Bool
  | .nil, _ => true
  | .lexem lexem _, it => !sameLexem it lexem
  | .identifier _ _, it => decide (it.type ≠ .identifier)
  | .parsed .., _ => false
  | .optional _ check subElements rest, it =>
    (!takesBlock check subElements rest it || stalls subElements it) && stalls rest it
  | .repeated _ check separator subElements rest, it =>
    match blockTest check subElements rest with
    | some takesTurn =>
      (!takesTurn it || (stalls subElements it && decide (separator.type ≠ .endOfFile) &&
        !sameLexem it separator)) && stalls rest it
    | none => stalls rest it

/-- No turn is taken at the lexem, or one that stalls and is not repeated. -/
def endsTurns (takesTurn : Lexem → Bool) (subElements : MatchElements) (separator it : Lexem) :
    Bool :=
  !takesTurn it || (stalls subElements it && decide (separator.type ≠ .endOfFile) &&
    !sameLexem it separator)

theorem stalls_repeated {name : Text} {check : BlockCheckLexemKind} {separator it : Lexem}
    {subElements rest : MatchElements} {takesTurn : Lexem → Bool}
    (htest : blockTest check subElements rest = some takesTurn) :
    stalls (.repeated name check separator subElements rest) it =
      (endsTurns takesTurn subElements separator it && stalls rest it) := by
  rw [stalls, htest]
  rfl

structure SamePlace (st st' : ParserState) : Prop where
  lexems : st'.lexems = st.lexems
  lastErrorIt : st'.lastErrorIt = st.lastErrorIt
  lastErrorRepeats : st'.lastErrorRepeats = st.lastErrorRepeats

namespace SamePlace

variable {st st' st'' : ParserState}

theorem refl (st : ParserState) : SamePlace st st := ⟨rfl, rfl, rfl⟩

theorem trans (h : SamePlace st st') (h' : SamePlace st' st'') : SamePlace st st'' where
  lexems := h'.lexems.trans h.lexems
  lastErrorIt := h'.lastErrorIt.trans h.lastErrorIt
  lastErrorRepeats := h'.lastErrorRepeats.trans h.lastErrorRepeats

theorem pushMacroError (st : ParserState) : SamePlace st (st.pushMacroError macroName) :=
  ⟨rfl, rfl, rfl⟩

theorem it_eq (h : SamePlace st st') : st'.it = st.it := by
  rw [it, h.lexems]
  rfl

theorem notEndOfFile_eq (h : SamePlace st st') : st'.notEndOfFile = st.notEndOfFile := by
  rw [notEndOfFile, h.lexems]
  rfl

theorem left_eq (h : SamePlace st st') : st'.left = st.left := by
  rw [left, h.notEndOfFile_eq, h.lexems, h.lastErrorIt, h.lastErrorRepeats]
  rfl

theorem takesTurnAt_eq (h : SamePlace st st') (takesTurn : Lexem → Bool) :
    takesTurnAt takesTurn st' = takesTurnAt takesTurn st := by
  rw [takesTurnAt, h.notEndOfFile_eq, h.it_eq]
  rfl

end SamePlace

variable {takesTurn : Lexem → Bool} {st : ParserState} {separator : Lexem} {fuel turns : Nat}
    {subElements : MatchElements}

theorem takesTurnAt_of_more
    (hmo : st.notEndOfFile = true) : takesTurnAt takesTurn st = takesTurn st.it := by
  rw [takesTurnAt, hmo, Bool.true_and]

theorem behindTurn_of_no_separator (h : separator.type = .endOfFile) (st : ParserState) :
    behindTurn macroName takesTurn separator st = .again st := by
  rw [behindTurn, if_neg (not_not_intro h)]

theorem behindTurn_of_other
    (h : separator.type ≠ .endOfFile) (ho : sameLexem st.it separator = false) :
    behindTurn macroName takesTurn separator st = .done st := by
  rw [behindTurn, if_pos h, ho]
  rfl

theorem left_behindTurn_lt (macroName : Text) (takesTurn : Lexem → Bool)
    (h : separator.type ≠ .endOfFile) (heq : sameLexem st.it separator = true)
    (hmo : st.notEndOfFile = true) :
    (behindTurn macroName takesTurn separator st).state.left < st.left := by
  rw [behindTurn]
  split_ifs
  · exact left_nextLexem_lt hmo
  · exact left_nextLexem_lt hmo

theorem samePlace_of_turns {matchBlock : ParserState → Option (VariablesMap × ParserState)}
    {maps : List VariablesMap} {result : Bool × List VariablesMap × ParserState}
    (hsub : ∀ st result, matchBlock st = some result → st.notEndOfFile = true →
      stalls subElements st.it = true → SamePlace st result.2)
    (hmo : st.notEndOfFile = true) (hstl : endsTurns takesTurn subElements separator st.it = true)
    (h : matchTurns macroName matchBlock takesTurn separator turns maps st = some result) :
    result.1 = true ∧ SamePlace st result.2.2 := by
  rcases matchTurns_cases h with ⟨-, rfl⟩ | ⟨_, _, st1, -, htk, hst1, hbh⟩
  · exact ⟨rfl, .refl st⟩
  · rw [takesTurnAt_of_more hmo] at htk
    rw [endsTurns, htk, Bool.not_true, Bool.false_or, and_eq_true, and_eq_true] at hstl
    have heq := hsub _ _ hst1 hmo hstl.1.1
    have ho : sameLexem st1.it separator = false := by
      rw [heq.it_eq]
      simpa using hstl.2
    rw [behindTurn_of_other (of_decide_eq_true hstl.1.2) ho] at hbh
    cases hbh
    exact ⟨rfl, heq⟩

variable {elements : MatchElements} {out : VariablesMap} {result : VariablesMap × ParserState}

theorem Matched.samePlace (h : Matched parsers macroName fuel elements out st result)
    (hmo : st.notEndOfFile = true) (hstl : stalls elements st.it = true) : SamePlace st result.2 := by
  induction h with
  | nil => exact .refl _
  | lexemError _ | identifierError _ => exact .pushMacroError _
  | lexem heq _ _ | identifier heq _ _ => simp [stalls, heq] at hstl
  | parsed | parsedError => cases hstl
  | optional htk _ _ ihS ih =>
    obtain ⟨hsub, hrs⟩ := and_eq_true_iff.1 hstl
    rw [htk] at hsub
    have heq := ihS hmo hsub
    exact heq.trans (ih (heq.notEndOfFile_eq.trans hmo) (by rw [heq.it_eq, hrs]))
  | skipped _ _ ih => exact ih hmo (and_eq_true_iff.1 hstl).2
  | untested htest _ ih =>
    rw [stalls, htest] at hstl
    exact ih hmo hstl
  | repeated htest _ htns _ ihS ih =>
    obtain ⟨hsub, hrs⟩ := and_eq_true_iff.1 ((stalls_repeated htest).symm.trans hstl)
    have heq := (samePlace_of_turns ihS hmo hsub htns).2
    exact heq.trans (ih (heq.notEndOfFile_eq.trans hmo) (by rw [heq.it_eq, hrs]))
  | repeatedError htest _ htns ihS =>
    rw [stalls_repeated htest] at hstl
    cases (samePlace_of_turns ihS hmo (and_eq_true_iff.1 hstl).1 htns).1

theorem matchTurns_endless (hsep : separator.type = .endOfFile) :
    ∀ maps st, takesTurnAt takesTurn st = true → stalls subElements st.it = true →
      matchTurns macroName (matchMacroBlock parsers macroName fuel subElements []) takesTurn separator
        turns maps st = none := by
  induction turns with
  | zero => exact fun _ _ _ _ => rfl
  | succ turns ih =>
    intro maps st htk hstl
    by_contra hrets
    obtain ⟨result, hres⟩ := ne_none_iff_exists'.1 hrets
    rcases matchTurns_cases hres with ⟨hends, -⟩ | ⟨_, _, st1, htns, -, hst1, hbh⟩
    · exact absurd (htk.symm.trans hends) Bool.noConfusion
    · obtain rfl := succ_inj.1 htns
      have heq := (matched_of_returns hst1).samePlace (and_eq_true_iff.1 htk).1 hstl
      rw [behindTurn_of_no_separator hsep] at hbh
      cases hbh with
      | again h =>
        rw [ih _ _ ((heq.takesTurnAt_eq takesTurn).trans htk) (by rw [heq.it_eq, hstl])] at h
        cases h

/-! ## Progress -/

theorem left_matchTurns_lt {maps : List VariablesMap}
    {result : Bool × List VariablesMap × ParserState}
    (hsub : ∀ result, matchMacroBlock parsers macroName fuel subElements [] st = some result →
      stalls subElements st.it = false → result.2.left < st.left)
    (hmo : st.notEndOfFile = true) (hstl : endsTurns takesTurn subElements separator st.it = false)
    (h : matchTurns macroName (matchMacroBlock parsers macroName fuel subElements []) takesTurn
      separator turns maps st = some result) : result.2.2.left < st.left := by
  obtain ⟨htk, hstl⟩ := or_eq_false_iff.1 hstl
  have htkAt : takesTurnAt takesTurn st = true :=
    (takesTurnAt_of_more hmo).trans (by simpa using htk)
  rcases matchTurns_cases h with ⟨hends, -⟩ | ⟨_, _, st1, -, -, hst1, hbh⟩
  · exact absurd (htkAt.symm.trans hends) Bool.noConfusion
  have hbhLe := hbh.left_le fun _ h => left_matchTurns (fun _ _ => left_matchMacroBlock) h
  cases hsubStl : stalls subElements st.it with
  | false =>
    exact hbhLe.trans_lt ((left_behindTurn macroName takesTurn separator st1).trans_lt
      (hsub _ hst1 hsubStl))
  | true =>
    have heq := (matched_of_returns hst1).samePlace hmo hsubStl
    have hsep : separator.type ≠ .endOfFile := by
      intro hsep
      rw [matchTurns_endless hsep maps st htkAt hsubStl] at h
      cases h
    have hlx : sameLexem st1.it separator = true := by
      rw [heq.it_eq]
      simpa [hsubStl, hsep] using hstl
    have hlt := left_behindTurn_lt macroName takesTurn hsep hlx (heq.notEndOfFile_eq.trans hmo)
    rw [heq.left_eq] at hlt
    exact hbhLe.trans_lt hlt

theorem Matched.left_lt (h : Matched parsers macroName fuel elements out st result)
    (hmo : st.notEndOfFile = true) (hstl : stalls elements st.it = false) : result.2.left < st.left := by
  induction h with
  | nil => cases hstl
  | lexem _ hrs _ | identifier _ hrs _ => exact hrs.left_le.trans_lt (left_nextLexem_lt hmo)
  | lexemError heq | identifierError heq => simp [stalls, heq] at hstl
  | parsed hpa _ hrs _ => exact hrs.left_le.trans_lt (parsers.left_lt _ _ _ _ hpa hmo)
  | parsedError hpa _ => exact (left_pushMacroError _).trans_lt (parsers.left_lt _ _ _ _ hpa hmo)
  | optional htk hbl hrs ihS ih =>
    rw [stalls, htk, Bool.not_true, Bool.false_or] at hstl
    cases hsub : stalls _ _ with
    | false => exact hrs.left_le.trans_lt (ihS hmo hsub)
    | true =>
      -- The elements behind the block are matched at the same lexem.
      have heq := hbl.samePlace hmo hsub
      rw [hsub, Bool.true_and] at hstl
      rw [← heq.left_eq]
      exact ih (heq.notEndOfFile_eq.trans hmo) (by rw [heq.it_eq, hstl])
  | skipped htk _ ih =>
    rw [stalls, eq_false_of_ne_true htk] at hstl
    exact ih hmo hstl
  | untested htest _ ih =>
    rw [stalls, htest] at hstl
    exact ih hmo hstl
  | @repeated _ _ separator subElements _ _ st takesTurn _ _ _ htest hbl htns hrs ihS ih =>
    rw [stalls_repeated htest] at hstl
    cases hends : endsTurns takesTurn subElements separator st.it with
    | false =>
      exact hrs.left_le.trans_lt (left_matchTurns_lt (fun _ h => ihS _ _ h hmo) hmo hends htns)
    | true =>
      have heq := (samePlace_of_turns (fun _ _ h => (hbl _ _ h).samePlace) hmo hends htns).2
      rw [hends, Bool.true_and] at hstl
      rw [← heq.left_eq]
      exact ih (heq.notEndOfFile_eq.trans hmo) (by rw [heq.it_eq, hstl])
  | @repeatedError _ _ separator subElements _ _ st takesTurn _ _ htest hbl htns ihS =>
    refine left_matchTurns_lt (fun _ h => ihS _ _ h hmo) hmo (eq_false_of_ne_true fun hends => ?_) htns
    cases (samePlace_of_turns (fun _ _ h => (hbl _ _ h).samePlace) hmo hends htns).1

/-! ## The matching ends -/

inductive StartsTurn (macroName : Text)
    (matchBlock : Nat → ParserState → Option (VariablesMap × ParserState))
    (takesTurn : Lexem → Bool) (separator : Lexem) (st : ParserState) : ParserState → Prop
  | first (htakes : takesTurnAt takesTurn st = true) :
      StartsTurn macroName matchBlock takesTurn separator st st
  | next {st1 st2 st3 : ParserState} {fuel : Nat} {variables_ : VariablesMap}
      (hturn : StartsTurn macroName matchBlock takesTurn separator st st1)
      (hblock : matchBlock fuel st1 = some (variables_, st2))
      (hbehind : behindTurn macroName takesTurn separator st2 = .again st3)
      (htakes : takesTurnAt takesTurn st3 = true) :
      StartsTurn macroName matchBlock takesTurn separator st st3

variable {st1 : ParserState}

theorem StartsTurn.takes {matchBlock : Nat → ParserState → Option (VariablesMap × ParserState)}
    (h : StartsTurn macroName matchBlock takesTurn separator st st1) :
    takesTurnAt takesTurn st1 = true := by
  cases h with
  | first htk => exact htk
  | next _ _ _ htk => exact htk

variable (parsers macroName) in
/-- All methods for elements that are called return, and no turn that is reached of a block without
a separator and without a lexem at its start stalls. -/
def TurnsProceed : MatchElements → ParserState → Prop
  | .nil, _ => True
  | .lexem it rest, st => sameLexem st.it it = true → TurnsProceed rest st.nextLexem
  | .identifier _ rest, st => st.it.type = .identifier → TurnsProceed rest st.nextLexem
  | .parsed _ kind rest, st =>
    ∃ empty st', parsers.parse kind st = some (empty, st') ∧
      (¬ (kind = .expression ∧ empty = true) → TurnsProceed rest st')
  | .optional _ check subElements rest, st =>
    if takesBlock check subElements rest st.it then
      TurnsProceed subElements st ∧ ∀ fuel variables_ st',
        matchMacroBlock parsers macroName fuel subElements [] st = some (variables_, st') →
        TurnsProceed rest st'
    else TurnsProceed rest st
  | .repeated _ check separator subElements rest, st =>
    match blockTest check subElements rest with
    | none => TurnsProceed rest st
    | some takesTurn =>
      (∀ st1, StartsTurn macroName
          (fun fuel => matchMacroBlock parsers macroName fuel subElements []) takesTurn separator st
          st1 →
        (check = .lexemAfterBlockEnd → separator.type = .endOfFile →
          stalls subElements st1.it = false) ∧ TurnsProceed subElements st1) ∧
      ∀ fuel turns maps st', matchTurns macroName
          (matchMacroBlock parsers macroName fuel subElements []) takesTurn separator turns [] st =
            some (true, maps, st') →
        TurnsProceed rest st'

theorem matchMacroBlock_unique {fuel' : Nat} {elements : MatchElements} {out : VariablesMap}
    {result r' : VariablesMap × ParserState}
    (h : matchMacroBlock parsers macroName fuel elements out st = some result)
    (h' : matchMacroBlock parsers macroName fuel' elements out st = some r') :
    result = r' := by
  have hmax := matchMacroBlock_mono (le_max_left fuel fuel') h
  have hmax' := matchMacroBlock_mono (le_max_right fuel fuel') h'
  exact some.inj (hmax.symm.trans hmax')

theorem matchTurns_unique {fuel' turns' : Nat} {maps : List VariablesMap}
    {result r' : Bool × List VariablesMap × ParserState}
    (h : matchTurns macroName (matchMacroBlock parsers macroName fuel subElements []) takesTurn
      separator turns maps st = some result)
    (h' : matchTurns macroName (matchMacroBlock parsers macroName fuel' subElements []) takesTurn
      separator turns' maps st = some r') : result = r' := by
  have hmax := matchTurns_mono (fun _ _ => matchMacroBlock_mono (le_max_left fuel fuel'))
    (le_max_left turns turns') h
  have hmax' := matchTurns_mono (fun _ _ => matchMacroBlock_mono (le_max_right fuel fuel'))
    (le_max_right turns turns') h'
  exact some.inj (hmax.symm.trans hmax')

section Loop

theorem matchTurns_from_turn {turns : Nat} {maps : List VariablesMap}
    {result : Bool × List VariablesMap × ParserState}
    (h : matchTurns macroName (matchMacroBlock parsers macroName fuel subElements []) takesTurn
      separator turns maps st = some result)
    (htn : StartsTurn macroName (fun fuel => matchMacroBlock parsers macroName fuel subElements [])
      takesTurn separator st st1) :
    ∃ turns' maps', matchTurns macroName (matchMacroBlock parsers macroName fuel subElements [])
      takesTurn separator turns' maps' st1 = some result := by
  induction htn with
  | first _ => exact ⟨turns, maps, h⟩
  | next htn hbl hbh _ ih =>
    obtain ⟨turns', maps', hrun⟩ := ih
    rcases matchTurns_cases hrun with ⟨hends, -⟩ | ⟨turns', _, _, -, -, hst2, hrs⟩
    · exact absurd (htn.takes.symm.trans hends) Bool.noConfusion
    · obtain ⟨rfl, rfl⟩ := mk.inj (matchMacroBlock_unique hst2 hbl)
      rw [hbh] at hrs
      cases hrs with
      | again hrs => exact ⟨_, _, hrs⟩

theorem left_again_lt {st2 st3 : ParserState} {vs : VariablesMap}
    (hmo : st1.notEndOfFile = true)
    (hbl : matchMacroBlock parsers macroName fuel subElements [] st1 = some (vs, st2))
    (hbh : behindTurn macroName takesTurn separator st2 = .again st3)
    (hpro : separator.type = .endOfFile → stalls subElements st1.it = false) :
    st3.left < st1.left := by
  have hle := left_matchMacroBlock hbl
  by_cases hsep : separator.type = .endOfFile
  · rw [behindTurn_of_no_separator hsep] at hbh
    rw [← TurnEnd.again.inj hbh]
    exact (matched_of_returns hbl).left_lt hmo (hpro hsep)
  · cases heq : sameLexem st2.it separator with
    | false =>
      rw [behindTurn_of_other hsep heq] at hbh
      cases hbh
    | true =>
      cases hmo2 : st2.notEndOfFile with
      | true =>
        have hlt := left_behindTurn_lt macroName takesTurn hsep heq hmo2
        rw [hbh] at hlt
        exact hlt.trans_le hle
      | false =>
        have hla := left_behindTurn macroName takesTurn separator st2
        rw [hbh, left_eq_zero hmo2] at hla
        exact hla.trans_lt (left_pos hmo)

/-- A turn that is reached does not stall where the turns end. -/
theorem turn_proceeds {turns : Nat} {result : Bool × List VariablesMap × ParserState}
    (h : matchTurns macroName (matchMacroBlock parsers macroName fuel subElements []) takesTurn
      separator turns [] st = some result)
    (htn : StartsTurn macroName (fun fuel => matchMacroBlock parsers macroName fuel subElements [])
      takesTurn separator st st1)
    (hsub : ∀ st result, matchMacroBlock parsers macroName fuel subElements [] st = some result →
      TurnsProceed parsers macroName subElements st) {check : BlockCheckLexemKind} :
    (check = .lexemAfterBlockEnd → separator.type = .endOfFile →
      stalls subElements st1.it = false) ∧ TurnsProceed parsers macroName subElements st1 := by
  obtain ⟨turns, maps, hrun⟩ := matchTurns_from_turn h htn
  constructor
  · intro _ hsep
    by_contra hstl
    rw [matchTurns_endless hsep maps st1 htn.takes (by simpa using hstl)] at hrun
    cases hrun
  · rcases matchTurns_cases hrun with ⟨hends, -⟩ | ⟨_, _, _, -, -, hbl, -⟩
    · exact absurd (htn.takes.symm.trans hends) Bool.noConfusion
    · exact hsub _ _ hbl

theorem exists_matchTurns (hsub : ∀ st1, StartsTurn macroName
      (fun fuel => matchMacroBlock parsers macroName fuel subElements []) takesTurn separator st st1 →
      (∃ fuel result, matchMacroBlock parsers macroName fuel subElements [] st1 = some result) ∧
        (separator.type = .endOfFile → stalls subElements st1.it = false)) (bound : Nat) :
    ∀ st1 maps, st1.left ≤ bound → (takesTurnAt takesTurn st1 = true → StartsTurn macroName
        (fun fuel => matchMacroBlock parsers macroName fuel subElements []) takesTurn separator st
        st1) →
      ∃ fuel turns result, matchTurns macroName (matchMacroBlock parsers macroName fuel subElements [])
        takesTurn separator turns maps st1 = some result := by
  induction bound with
  | zero =>
    intro st1 maps hbd _
    have hends : takesTurnAt takesTurn st1 = false := by
      cases hmo : st1.notEndOfFile with
      | false => rw [takesTurnAt, hmo, Bool.false_and]
      | true =>
        have hpos := left_pos hmo
        omega
    exact ⟨0, 1, _, matchTurns_end hends⟩
  | succ bound ih =>
    intro st1 maps hbd hsts
    cases htk : takesTurnAt takesTurn st1 with
    | false => exact ⟨0, 1, _, matchTurns_end htk⟩
    | true =>
      have htn := hsts htk
      have hmo := (and_eq_true_iff.1 htk).1
      obtain ⟨⟨fuel, ⟨vs, st2⟩, hbl⟩, hpro⟩ := hsub st1 htn
      have hend : ∃ fuel' turns result, BehindTurn macroName
          (matchMacroBlock parsers macroName fuel' subElements []) takesTurn separator turns
          (maps ++ [vs]) (behindTurn macroName takesTurn separator st2) result := by
        cases hbh : behindTurn macroName takesTurn separator st2 with
        | done st3 => exact ⟨0, 0, _, .done⟩
        | error st3 => exact ⟨0, 0, _, .error⟩
        | again st3 =>
          have hlt := left_again_lt hmo hbl hbh hpro
          obtain ⟨fuel', turns, result, hrun⟩ := ih st3 (maps ++ [vs]) (by omega)
            fun htk => .next htn hbl hbh htk
          exact ⟨fuel', turns, result, .again hrun⟩
      obtain ⟨fuel', turns, result, hend⟩ := hend
      refine ⟨max fuel fuel', turns + 1, result, matchTurns_of_behindTurn htk
        (matchMacroBlock_mono (le_max_left fuel fuel') hbl) (hend.mono fun st h => ?_)⟩
      exact matchTurns_mono (fun _ _ => matchMacroBlock_mono (le_max_right fuel fuel')) le_rfl h

end Loop

theorem Matched.turnsProceed (h : Matched parsers macroName fuel elements out st result) :
    TurnsProceed parsers macroName elements st := by
  induction h with
  | nil => trivial
  | lexem _ _ ih | identifier _ _ ih => exact fun _ => ih
  | lexemError h | identifierError h => exact fun heq => absurd heq h
  | parsed hpa _ _ ih => exact ⟨_, _, hpa, fun _ => ih⟩
  | parsedError hpa he => exact ⟨_, _, hpa, fun h => absurd he h⟩
  | optional htk hbl _ ihS ih =>
    rw [TurnsProceed, if_pos htk]
    refine ⟨ihS, fun _ _ _ h => ?_⟩
    obtain ⟨-, rfl⟩ := mk.inj (matchMacroBlock_unique (hbl.returns le_rfl) h)
    exact ih
  | skipped htk _ ih =>
    rw [TurnsProceed, if_neg htk]
    exact ih
  | untested htest _ ih =>
    rw [TurnsProceed, htest]
    exact ih
  | repeated htest _ htns _ ihS ih =>
    rw [TurnsProceed, htest]
    refine ⟨fun st1 htn => turn_proceeds htns htn ihS, fun _ _ _ _ h => ?_⟩
    obtain ⟨-, -, rfl⟩ := mk.inj (matchTurns_unique htns h)
    exact ih
  | repeatedError htest _ htns ihS =>
    rw [TurnsProceed, htest]
    refine ⟨fun st1 htn => turn_proceeds htns htn ihS, fun _ _ _ _ h => ?_⟩
    cases (mk.inj (matchTurns_unique htns h)).1

theorem firstLexem_of_blockCheck {subElements r : MatchElements}
    (h : blockCheck subElements r = some .lexemAtBlockStart) :
    subElements.firstLexem.isSome = true := by
  unfold blockCheck at h
  split at h
  · assumption
  · split at h
    · cases h
    · cases h

theorem stalls_of_start {subElements rest : MatchElements} {takesTurn : Lexem → Bool} {it : Lexem}
    (hchk : blockCheck subElements rest = some .lexemAtBlockStart)
    (htest : blockTest .lexemAtBlockStart subElements rest = some takesTurn)
    (htk : takesTurn it = true) : stalls subElements it = false := by
  have hfst := firstLexem_of_blockCheck hchk
  cases subElements with
  | lexem lexem _ =>
    rw [← some.inj htest] at htk
    rw [stalls, show sameLexem it lexem = true from htk]
    rfl
  | nil | identifier | parsed | optional | repeated => cases hfst

/-- The bounds of the turns and of what follows them are put together. -/
theorem matchMacroBlock_repeated {name : Text} {check : BlockCheckLexemKind}
    {subElements rest : MatchElements} {separator : Lexem} {takesTurn : Lexem → Bool}
    {st st' : ParserState} {fuel' turns : Nat} {maps : List VariablesMap}
    (htest : blockTest check subElements rest = some takesTurn)
    (hrun : matchTurns macroName (matchMacroBlock parsers macroName fuel subElements []) takesTurn
      separator turns [] st = some (true, maps, st'))
    (hma : matchMacroBlock parsers macroName fuel' rest
      ((name, parsedElement st st' maps .repeated) :: out) st' = some result) :
    matchMacroBlock parsers macroName (max fuel' (max fuel turns))
      (.repeated name check separator subElements rest) out st = some result := by
  rw [matchMacroBlock, htest]
  dsimp only
  rw [matchTurns_mono
    (fun _ _ => matchMacroBlock_mono ((le_max_left fuel turns).trans (le_max_right _ _)))
    ((le_max_right fuel turns).trans (le_max_right _ _)) hrun]
  exact matchMacroBlock_mono (le_max_left _ _) hma

theorem returns_of_turnsProceed (elements : MatchElements) (hwell : elements.WellFormed) :
    ∀ out st, TurnsProceed parsers macroName elements st →
      ∃ fuel result, matchMacroBlock parsers macroName fuel elements out st = some result := by
  induction elements with
  | nil => exact fun out st _ => ⟨0, _, rfl⟩
  | lexem it r ih =>
    intro out st h
    by_cases heq : sameLexem st.it it = true
    · obtain ⟨fuel, result, hrs⟩ := ih hwell _ _ (h heq)
      exact ⟨fuel, result, by rw [matchMacroBlock, if_pos heq, hrs]⟩
    · exact ⟨0, _, by rw [matchMacroBlock, if_neg heq]⟩
  | identifier n r ih =>
    intro out st h
    by_cases hid : st.it.type = .identifier
    · obtain ⟨fuel, result, hrs⟩ := ih hwell _ _ (h hid)
      exact ⟨fuel, result, by rw [matchMacroBlock, if_pos hid, hrs]⟩
    · exact ⟨0, _, by rw [matchMacroBlock, if_neg hid]⟩
  | parsed n k r ih =>
    intro out st h
    obtain ⟨empty, st', hpa, h⟩ := h
    by_cases he : k = .expression ∧ empty = true
    · exact ⟨0, _, by rw [matchMacroBlock, hpa]; exact if_pos he⟩
    · obtain ⟨fuel, result, hrs⟩ := ih hwell _ _ (h he)
      refine ⟨fuel, result, ?_⟩
      rw [matchMacroBlock, hpa]
      dsimp only
      rw [if_neg he, hrs]
  | optional n check subElements r ihS ih =>
    intro out st h
    rw [TurnsProceed] at h
    split at h
    · next htk =>
      obtain ⟨hsub, hrs⟩ := h
      obtain ⟨fuel, ⟨vs, st'⟩, hbl⟩ := ihS hwell.2.1 [] st hsub
      obtain ⟨fuel', result, hma⟩ := ih hwell.2.2 ((n, parsedElement st st' [vs] .optional) ::
        out) st' (hrs _ _ _ hbl)
      refine ⟨max fuel fuel', result, ?_⟩
      rw [matchMacroBlock, if_pos htk, matchMacroBlock_mono (le_max_left fuel fuel') hbl]
      exact matchMacroBlock_mono (le_max_right fuel fuel') hma
    · next htk =>
      obtain ⟨fuel, result, hma⟩ := ih hwell.2.2 _ _ h
      exact ⟨fuel, result, by rw [matchMacroBlock, if_neg htk, hma]⟩
  | repeated n check separator subElements r ihS ih =>
    intro out st h
    rw [TurnsProceed] at h
    split at h
    · next htest =>
      obtain ⟨fuel, result, hma⟩ := ih hwell.2.2 _ _ h
      exact ⟨fuel, result, by rw [matchMacroBlock, htest]; exact hma⟩
    · next takesTurn htest =>
      obtain ⟨htns, hrs⟩ := h
      have hsub : ∀ st1, StartsTurn macroName
          (fun fuel => matchMacroBlock parsers macroName fuel subElements []) takesTurn separator st
          st1 → (∃ fuel result, matchMacroBlock parsers macroName fuel subElements [] st1 =
            some result) ∧ (separator.type = .endOfFile → stalls subElements st1.it = false) := by
        intro st1 htn
        refine ⟨ihS hwell.2.1 [] st1 (htns st1 htn).2, fun hsep => ?_⟩
        cases check with
        | lexemAfterBlockEnd => exact (htns st1 htn).1 rfl hsep
        | lexemAtBlockStart =>
          exact stalls_of_start hwell.1 htest (and_eq_true_iff.1 htn.takes).2
      obtain ⟨fuel, turns, ⟨ok, maps, st'⟩, hrun⟩ := exists_matchTurns hsub st.left st [] le_rfl .first
      cases ok with
      | false =>
        refine ⟨max fuel turns, (out, st'), ?_⟩
        rw [matchMacroBlock, htest]
        dsimp only
        rw [matchTurns_mono (fun _ _ => matchMacroBlock_mono (le_max_left fuel turns))
          (le_max_right fuel turns) hrun]
      | true =>
        obtain ⟨fuel', result, hma⟩ := ih hwell.2.2
          ((n, parsedElement st st' maps .repeated) :: out) st' (hrs _ _ _ _ hrun)
        exact ⟨_, result, matchMacroBlock_repeated htest hrun hma⟩

/-- The matching of a macro whose definition is accepted without an error returns if and only if
every method that it calls does and no turn stalls that it reaches, of a block without a separator
and without a lexem at its start. -/
theorem matchMacroBlock_returns_iff (parsers : ElementParsers) (macroName : Text) (fuel : Nat)
    (definition : ParserState) (elements : MatchElements) (definitionEnd : ParserState)
    (hdefinition : parseMacroMatchBlock fuel definition = .ok (elements, definitionEnd))
    (herrors : definitionEnd.errorMessages = []) (st : ParserState) :
    (∃ fuel, (matchMacroBlock parsers macroName fuel elements [] st).isSome = true) ↔
      TurnsProceed parsers macroName elements st := by
  have hwell := (accepts_parseMacroMatchBlock fuel definition elements definitionEnd hdefinition
    herrors).2
  constructor
  · rintro ⟨fuel, hreturns⟩
    obtain ⟨result, hresult⟩ := isSome_iff_exists.1 hreturns
    exact (matched_of_returns hresult).turnsProceed
  · intro h
    obtain ⟨fuel, result, hresult⟩ := returns_of_turnsProceed elements hwell [] st h
    exact ⟨fuel, isSome_iff_exists.2 ⟨result, hresult⟩⟩

/-! ### A block of names -/

variable (st)

theorem left_pushErrorMessage_le (it : Lexem) :
    (st.pushErrorMessage it).left ≤ st.left := by
  cases hmo : st.notEndOfFile with
  | true => exact (left_pushErrorMessage_lt it hmo).le
  | false =>
    have heq : (st.pushErrorMessage it).lexems = st.lexems := by
      refine (lexems_pushErrorMessage st it).elim id fun h => ?_
      rw [h, nextLexem_of_end hmo]
    have hmo' : (st.pushErrorMessage it).notEndOfFile = false := by
      rw [notEndOfFile, heq]
      exact hmo
    rw [left_eq_zero hmo', left_eq_zero hmo]

def parseName : Bool × ParserState :=
  if st.it.type = .identifier then (false, st.nextLexem) else (true, st.pushErrorMessage st.it)

theorem left_parseName_lt {st : ParserState} (hmo : st.notEndOfFile = true) :
    (parseName st).2.left < st.left := by
  unfold parseName
  split
  · exact left_nextLexem_lt hmo
  · exact left_pushErrorMessage_lt _ hmo

theorem left_parseName_le : (parseName st).2.left ≤ st.left := by
  unfold parseName
  split
  · exact st.left_nextLexem_le
  · exact left_pushErrorMessage_le st _

def nameParsers : ElementParsers where
  parse _ st := some (parseName st)
  left_lt _ _ _ _ h hmore :=
    lt_of_eq_of_lt (congrArg (fun r => r.2.left) (some.inj h)).symm (left_parseName_lt hmore)
  left_le _ st _ _ h :=
    le_of_eq_of_le (congrArg (fun r => r.2.left) (some.inj h)).symm (left_parseName_le st)

def lexemOf (type : LexemType) (text : String) : Lexem := ⟨asciiText text, ⟨1, 0⟩, type, 0⟩

/-- `?t:ty ?r:rep<? ?a:ident ?> ;` -/
def namesDefinition : ParserState :=
  .start [lexemOf .macroIdentifier "?t", lexemOf .colon ":", lexemOf .identifier "ty",
    lexemOf .macroIdentifier "?r", lexemOf .colon ":", lexemOf .identifier "rep",
    lexemOf .macroBracketLeft "<?", lexemOf .macroIdentifier "?a", lexemOf .colon ":",
    lexemOf .identifier "ident", lexemOf .macroBracketRight "?>", lexemOf .semicolon ";",
    lexemOf .macroBracketRight "?>", eofLexem]

def namesElements : MatchElements :=
  .parsed (asciiText "?t") .typename (.repeated (asciiText "?r") .lexemAfterBlockEnd eofLexem
    (.identifier (asciiText "?a") .nil) (.lexem (lexemOf .semicolon ";") .nil))

def acceptsNames : Bool :=
  match parseMacroMatchBlock 20 namesDefinition with
  | .ok (elements, definitionEnd) =>
    decide (elements = namesElements) && decide (definitionEnd.errorMessages = [])
  | .error _ => false

theorem parseMacroMatchBlock_names : ∃ definitionEnd,
    parseMacroMatchBlock 20 namesDefinition = .ok (namesElements, definitionEnd) ∧
      definitionEnd.errorMessages = [] := by
  have hacs : acceptsNames = true := by decide +kernel
  unfold acceptsNames at hacs
  split at hacs
  · next elements definitionEnd hpa =>
    obtain ⟨hels, herrs⟩ := and_eq_true_iff.1 hacs
    rw [of_decide_eq_true hels] at hpa
    exact ⟨definitionEnd, hpa, of_decide_eq_true herrs⟩
  · cases hacs

def callOf (names : List Lexem) : ParserState :=
  .start (lexemOf .identifier "T" :: names ++ [lexemOf .semicolon ";", eofLexem])

/-- The matching of `T + ;` does not return. -/
theorem matchMacroBlock_endless_plus :
    (∃ definitionEnd, parseMacroMatchBlock 20 namesDefinition = .ok (namesElements, definitionEnd) ∧
      definitionEnd.errorMessages = []) ∧
    ∀ fuel, matchMacroBlock nameParsers (asciiText "M") fuel namesElements []
      (callOf [lexemOf .plus "+"]) = none := by
  refine ⟨parseMacroMatchBlock_names, fun fuel => ?_⟩
  have hendless : matchTurns (asciiText "M") (matchMacroBlock nameParsers (asciiText "M") fuel
      (.identifier (asciiText "?a") .nil) []) (fun it => !sameLexem it (lexemOf .semicolon ";"))
      eofLexem fuel [] (callOf [lexemOf .plus "+"]).nextLexem = none :=
    matchTurns_endless rfl [] _ (by decide +kernel) (by decide +kernel)
  have hparse : nameParsers.parse .typename (callOf [lexemOf .plus "+"]) =
      some (false, (callOf [lexemOf .plus "+"]).nextLexem) := rfl
  rw [namesElements, matchMacroBlock, hparse]
  dsimp only
  rw [if_neg (by decide), matchMacroBlock]
  dsimp only [blockTest, MatchElements.elementLexem, Option.map]
  rw [hendless]

/-- The matching of `T x y ;` returns, so no turn stalls there. -/
theorem turnsProceed_names : TurnsProceed nameParsers (asciiText "M") namesElements
    (callOf [lexemOf .identifier "x", lexemOf .identifier "y"]) := by
  obtain ⟨definitionEnd, hparse, herrors⟩ := parseMacroMatchBlock_names
  refine (matchMacroBlock_returns_iff nameParsers (asciiText "M") 20 namesDefinition namesElements
    definitionEnd hparse herrors _).1 ⟨10, ?_⟩
  decide +kernel

end USprache.LexSynt
