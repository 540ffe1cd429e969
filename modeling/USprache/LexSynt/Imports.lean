import USprache.LexSynt.SyntaxAnalyzer

/-!
# Imports

`ParseImports` reads the imports at the start of a file.  It runs before the imported
files and their macros are known, so a syntax error makes it skip to the next lexem it
can go on with; the errors are dropped and the syntax analysis finds them again.

The fuel bounds the turns of its loops.  `parseImports_returns` says that one turn for
each lexem is enough.
-/

namespace USprache.LexSynt

structure Import where
  srcLoc : SrcLoc
  importName : Text
deriving DecidableEq

def namespaceBodyElementsStartLexems : List Keyword :=
  [.namespace_, .class_, .struct_, .fn_, .op_, .var_, .auto_, .static_assert_]

/-- The lexems at which `ParseImports` goes on after an error. -/
def expectedAfterImport (it : Lexem) : Bool :=
  if it.type = .identifier then
    it.text ∈ (Keyword.import_ :: namespaceBodyElementsStartLexems).map Keyword.text
  else it.type = .string

/-- `TryRecoverAfterError` for any test of the lexem to stop at. -/
def tryRecoverAt (expected : Lexem → Bool) : Nat → List Lexem → Except Fault (List Lexem)
  | 0, _ => .error .outOfFuel
  | fuel + 1, it :: next :: rest =>
    match closingBracket it.type with
    | some closing => do
      match ← trySkipBrackets fuel closing (next :: rest) with
      | it :: next :: rest =>
        if expected it then return it :: next :: rest
        else tryRecoverAt expected fuel (next :: rest)
      | short => return short
    | none =>
      if expected it then return it :: next :: rest
      else tryRecoverAt expected fuel (next :: rest)
  | _ + 1, short => .ok short

namespace Parser

def recoverAt (fuel : Nat) (expected : Lexem → Bool) : Parser Unit := fun st => do
  let lexems ← tryRecoverAt expected fuel st.lexems
  return ((), { st with lexems := lexems })

def importsTurn (fuel : Nat) (imports : List Import) : Parser (List Import ⊕ List Import) := do
  if !(← notEndOfFile) then return .inr imports
  let it ← current
  if ¬(it.type = .identifier ∧ it.text = Keyword.import_.text) then return .inr imports
  nextLexem
  let it ← current
  if it.type = .string then
    nextLexem
    return .inl (imports ++ [⟨it.srcLoc, it.text⟩])
  else
    pushErrorMessage
    recoverAt fuel expectedAfterImport
    return .inl imports

end Parser

def parseImports (fuel : Nat) (lexems : List Lexem) : Except Fault (List Import) := do
  let (imports, _) ← Parser.loop (Parser.importsTurn fuel) fuel [] (ParserState.start lexems)
  return imports

theorem trySkipBrackets_returns : ∀ fuel closing lxs, lxs.length < fuel →
    ∃ rs, trySkipBrackets fuel closing lxs = .ok rs ∧ rs.length ≤ lxs.length := by
  intro fuel
  induction fuel with
  | zero => exact fun _ _ h => absurd h (Nat.not_lt_zero _)
  | succ fuel ih =>
    intro closing lxs hf
    match lxs with
    | [] => exact ⟨[], rfl, le_refl _⟩
    | [it] => exact ⟨[it], rfl, le_refl _⟩
    | it :: next :: rs =>
      simp only [List.length_cons] at hf
      -- Where the loop stands at a lexem that is no bracket, or behind inner brackets.
      have hat : ∀ it next tail, tail.length ≤ rs.length →
          ∃ r, (if it.type = closing then pure (next :: tail)
            else trySkipBrackets fuel closing (next :: tail)) = .ok r ∧
            r.length ≤ (it :: next :: rs).length := by
        intro it next tail htl
        split
        · exact ⟨_, rfl, by simp only [List.length_cons]; omega⟩
        · obtain ⟨r, hr, hle⟩ := ih closing (next :: tail) (by simp only [List.length_cons]; omega)
          exact ⟨r, hr, by simp only [List.length_cons] at hle ⊢; omega⟩
      unfold trySkipBrackets
      split
      · next inner _ =>
        obtain ⟨r, hr, hle⟩ := ih inner (next :: rs) (by simp only [List.length_cons]; omega)
        rw [hr]
        match r with
        | [] => exact ⟨[], rfl, Nat.zero_le _⟩
        | [x] => exact ⟨[x], rfl, by simp⟩
        | x :: y :: tail => exact hat x y tail (by simp only [List.length_cons] at hle; omega)
      · exact hat it next rs (le_refl _)

theorem tryRecoverAt_returns (expected : Lexem → Bool) : ∀ fuel lxs, lxs.length < fuel →
    ∃ rs, tryRecoverAt expected fuel lxs = .ok rs ∧ rs.length ≤ lxs.length := by
  intro fuel
  induction fuel with
  | zero => exact fun _ h => absurd h (Nat.not_lt_zero _)
  | succ fuel ih =>
    intro lxs hf
    match lxs with
    | [] => exact ⟨[], rfl, le_refl _⟩
    | [it] => exact ⟨[it], rfl, le_refl _⟩
    | it :: next :: rs =>
      simp only [List.length_cons] at hf
      have hat : ∀ it next tail, tail.length ≤ rs.length →
          ∃ r, (if expected it then pure (it :: next :: tail)
            else tryRecoverAt expected fuel (next :: tail)) = .ok r ∧
            r.length ≤ (it :: next :: rs).length := by
        intro it next tail htl
        split
        · exact ⟨_, rfl, by simp only [List.length_cons]; omega⟩
        · obtain ⟨r, hr, hle⟩ := ih (next :: tail) (by simp only [List.length_cons]; omega)
          exact ⟨r, hr, by simp only [List.length_cons] at hle ⊢; omega⟩
      unfold tryRecoverAt
      split
      · next closing _ =>
        obtain ⟨r, hr, hle⟩ := trySkipBrackets_returns fuel closing (next :: rs)
          (by simp only [List.length_cons]; omega)
        rw [hr]
        match r with
        | [] => exact ⟨[], rfl, Nat.zero_le _⟩
        | [x] => exact ⟨[x], rfl, by simp⟩
        | x :: y :: tail => exact hat x y tail (by simp only [List.length_cons] at hle; omega)
      · exact hat it next rs (le_refl _)

namespace Parser

theorem nextLexem_length {st : ParserState} (h : 1 < st.lexems.length) :
    st.nextLexem.lexems.length + 1 = st.lexems.length := by
  unfold ParserState.nextLexem ParserState.notEndOfFile
  rw [if_pos (by simpa using h), List.length_tail]
  omega

theorem nextLexem_length_le (st : ParserState) : st.nextLexem.lexems.length ≤ st.lexems.length := by
  unfold ParserState.nextLexem
  split
  · rw [List.length_tail]; omega
  · exact le_refl _

theorem pushErrorMessage_length_le (st : ParserState) (it : Lexem) :
    (st.pushErrorMessage it).lexems.length ≤ st.lexems.length := by
  rcases lexems_pushErrorMessage st it with heq | heq
  · rw [heq]
  · rw [heq]
    exact nextLexem_length_le st

theorem importsTurn_returns {fuel : Nat} {st : ParserState} (hf : st.lexems.length < fuel)
    (imps : List Import) :
    ∃ res st', importsTurn fuel imps st = .ok (res, st') ∧
      (∀ imps', res = .inl imps' → st'.lexems.length < st.lexems.length) := by
  by_cases hend : st.notEndOfFile = true
  · have hlen : 1 < st.lexems.length := by simpa [ParserState.notEndOfFile] using hend
    match hst : st.lexems with
    | [] | [it] => simp [hst] at hlen
    | it :: next :: rest =>
      have hnx : st.nextLexem.lexems = next :: rest := by
        rw [ParserState.nextLexem, if_pos hend, hst, List.tail_cons]
      by_cases himp : it.type = .identifier ∧ it.text = Keyword.import_.text
      · by_cases hstr : next.type = .string
        · refine ⟨.inl (imps ++ [⟨next.srcLoc, next.text⟩]), st.nextLexem.nextLexem, ?_, ?_⟩
          · simp [importsTurn, notEndOfFile, current, nextLexem, bind, StateT.bind, Except.bind,
              hend, hst, hnx, himp, hstr]
            rfl
          · intro _ _
            have := nextLexem_length_le st.nextLexem
            rw [hnx] at this
            simp only [List.length_cons] at this ⊢
            omega
        · have hpu := pushErrorMessage_length_le st.nextLexem next
          have hlen' := nextLexem_length hlen
          obtain ⟨r, hr, hle⟩ := tryRecoverAt_returns expectedAfterImport fuel
            (st.nextLexem.pushErrorMessage next).lexems (by omega)
          refine ⟨.inl imps, { st.nextLexem.pushErrorMessage next with lexems := r }, ?_, ?_⟩
          · simp [importsTurn, notEndOfFile, current, nextLexem, bind, StateT.bind, Except.bind,
              pushErrorMessage, recoverAt, hend, hst, hnx, himp, hstr, modify, modifyGet,
              MonadStateOf.modifyGet, StateT.modifyGet, pure, Except.pure, hr]
            rfl
          · intro _ _
            rw [← hst]
            dsimp only
            omega
      · refine ⟨.inr imps, st, ?_, by simp⟩
        simp [importsTurn, notEndOfFile, current, bind, StateT.bind, Except.bind, hend, hst, himp]
        rfl
  · exact ⟨.inr imps, st, by simp [importsTurn, notEndOfFile, bind, StateT.bind, hend]; rfl, by simp⟩

theorem loop_importsTurn_returns (fuel : Nat) : ∀ turns imps st, st.lexems.length < fuel →
    st.lexems.length < turns →
    ∃ res, loop (importsTurn fuel) turns imps st = .ok res := by
  intro turns
  induction turns with
  | zero => exact fun _ _ _ h => absurd h (Nat.not_lt_zero _)
  | succ turns ih =>
    intro imps st hf htns
    obtain ⟨res, st', htn, hless⟩ := importsTurn_returns hf imps
    cases res with
    | inl imps' =>
      have hlt := hless imps' rfl
      obtain ⟨res, hres⟩ := ih imps' st' (by omega) (by omega)
      refine ⟨res, ?_⟩
      change (importsTurn fuel imps st >>= _) = _
      rw [htn]
      exact hres
    | inr imps' =>
      refine ⟨(imps', st'), ?_⟩
      change (importsTurn fuel imps st >>= _) = _
      rw [htn]
      rfl

end Parser

theorem parseImports_returns {fuel : Nat} {lxs : List Lexem} (h : lxs.length < fuel) :
    ∃ imps, parseImports fuel lxs = .ok imps := by
  obtain ⟨res, hres⟩ := Parser.loop_importsTurn_returns fuel fuel [] (ParserState.start lxs) h h
  exact ⟨res.1, by rw [parseImports, hres]; rfl⟩

end USprache.LexSynt
