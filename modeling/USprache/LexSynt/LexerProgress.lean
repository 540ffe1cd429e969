import USprache.LexSynt.LexicalAnalyzer

/-!
# Progress of the lexical analyzer

How far each part of the analyzer moves the read position, and which errors the
turns of the main loop add.
-/

namespace USprache.LexSynt

open List

variable (it : Text)

theorem elementKind_spec (next : Option UInt8) :
    match elementKind it next with
    | .lineComment => getUTF8FirstChar it = '/'.toNat ∧ next = some (ascii '/')
    | .comment => getUTF8FirstChar it = '/'.toNat ∧ next = some (ascii '*')
    | .newline => isNewline (getUTF8FirstChar it) = true
    | .whitespace =>
      isNewline (getUTF8FirstChar it) = false ∧ isWhitespace (getUTF8FirstChar it) = true
    | .string => getUTF8FirstChar it = '"'.toNat
    | .charLiteral => getUTF8FirstChar it = '\''.toNat
    | .number => isNumberStartChar (getUTF8FirstChar it) = true
    | .identifier => isIdentifierStartChar (getUTF8FirstChar it) = true
    | .macroIdentifier => startsMacroIdentifier it next = true
    | .fixed => isWhitespace (getUTF8FirstChar it) = false := by
  unfold elementKind
  simp only
  split_ifs <;> simp_all

theorem except_bind_ok {α β : Type} {x : Except Fault α} {f : α → Except Fault β} {r : β}
    (h : x >>= f = .ok r) : ∃ a, x = .ok a ∧ f a = .ok r := by
  cases x with
  | error fault => cases h
  | ok a => exact ⟨a, rfl, h⟩

theorem advance_eq_ok {it it' : Text} {k : Nat} (h : advance it k = .ok it') : it' = it.drop k := by
  unfold advance at h
  split at h
  · exact (Except.ok.inj h).symm
  · cases h

theorem identifierEnd_length_le : (identifierEnd it).length ≤ it.length := by
  fun_induction identifierEnd it with
  | case1 it h ih => exact le_trans ih (le_of_lt (readNextUTF8Char_length_lt h.1))
  | case2 it h => exact le_refl _

theorem identifierEnd_length_lt {it : Text} (h : it ≠ [])
    (hc : isIdentifierChar (getUTF8FirstChar it) = true) :
    (identifierEnd it).length < it.length := by
  rw [identifierEnd, dif_pos ⟨h, hc⟩]
  exact lt_of_le_of_lt (identifierEnd_length_le _) (readNextUTF8Char_length_lt h)

theorem skipLineComment_length_le : (skipLineComment it).length ≤ it.length := by
  fun_induction skipLineComment it with
  | case1 it h ih => exact le_trans ih (le_of_lt (readNextUTF8Char_length_lt h.1))
  | case2 it h => exact le_refl _

theorem skipLineComment_length_lt {it : Text} (h : it ≠ [])
    (hc : isNewline (getUTF8FirstChar it) = false) :
    (skipLineComment it).length < it.length := by
  rw [skipLineComment, dif_pos ⟨h, hc⟩]
  exact lt_of_le_of_lt (skipLineComment_length_le _) (readNextUTF8Char_length_lt h)

theorem skipComment_length_le {it it' : Text} {dep l col dep' l' col' : Nat}
    (h : skipComment it dep l col = .done it' dep' l' col') :
    it'.length ≤ it.length := by
  fun_induction skipComment it dep l col with
  | case1 => cases h; exact le_refl _
  | case2 => cases h
  | case3 it dep l col hnil hcl hlim hla =>
    cases h
    rw [length_drop]
    exact Nat.sub_le _ _
  | case4 it dep l col hnil hcl hlim hla ih | case6 it dep l col hnil hcl hopen hlim ih =>
    have hle := ih h
    rw [length_drop] at hle
    omega
  | case5 => cases h
  | case7 => cases h
  | case8 it dep l col hnil hcl hopen hnl hlim ih =>
    have hle := le_trans (ih h) (skipSecondNewlineInComment_length_le _ _)
    rw [length_drop] at hle
    omega
  | case9 => cases h
  | case10 it dep l col hnil hcl hopen hnl hlim ih =>
    exact le_trans (ih h) (le_of_lt (readNextUTF8Char_length_lt hnil))

theorem parseStringLoop_length_le (t it : Text) : (parseStringLoop t it).it.length ≤ it.length := by
  fun_induction parseStringLoop t it <;> simp_all <;> omega

theorem charLiteralEnd_length_le (t it : Text) : (charLiteralEnd t it).it.length ≤ it.length := by
  unfold charLiteralEnd
  repeat' split
  all_goals simp

theorem parseCharLiteral_cons (q : UInt8) (t : Text) : parseCharLiteral (q :: t) =
    match t with
      | [] => .ok ⟨[], [], ["unexpected end of file after '"]⟩
      | b :: u =>
        if b = ascii '\'' then .ok ⟨[], b :: u, ["empty char literal"]⟩
        else if b = ascii '\\' then
          match u with
          | [] => .error .movePastEnd
          | e :: w => charLiteralEscape e w
        else
          .ok (charLiteralEnd (pushCharToUTF8String (readNextUTF8Char (b :: u)).1 [])
            (readNextUTF8Char (b :: u)).2) := by
  unfold parseCharLiteral
  rw [advance_of_le (by simp : 1 ≤ (q :: t).length)]
  cases t with
  | nil => rfl
  | cons b u =>
    simp only [bind, Except.bind, pure, Except.pure, drop_succ_cons, drop_zero,
      cons_ne_nil, if_false, peek_of_le (Nat.zero_le _), getD_cons_zero]
    by_cases hq : b = ascii '\''
    · rw [if_pos hq, if_pos hq]
    by_cases hsl : b = ascii '\\'
    · cases u with
      | nil => rfl
      | cons e w => rfl
    · rw [if_neg hq, if_neg hq, if_neg hsl, if_neg hsl]

theorem charLiteralEscape_ok (e : UInt8) (w : Text) :
    ∃ parsed, charLiteralEscape e w = .ok parsed ∧ parsed.it.length ≤ w.length := by
  unfold charLiteralEscape
  split
  · exact ⟨_, rfl, charLiteralEnd_length_le _ _⟩
  · split
    · split
      · exact ⟨_, rfl, le_refl _⟩
      · split
        · exact ⟨_, rfl, by simp⟩
        · refine ⟨_, rfl, le_trans (charLiteralEnd_length_le _ _) ?_⟩
          rw [length_drop]
          exact Nat.sub_le _ _
    · exact ⟨_, rfl, le_refl _⟩

/-- A char literal is left behind its quote, unless the text ends behind a
backslash. -/
theorem parseCharLiteral_spec (q : UInt8) (t : Text) :
    (t = [ascii '\\'] ∧ parseCharLiteral (q :: t) = .error .movePastEnd) ∨
    ∃ parsed, parseCharLiteral (q :: t) = .ok parsed ∧ parsed.it.length ≤ t.length := by
  rw [parseCharLiteral_cons]
  cases t with
  | nil => exact .inr ⟨_, rfl, le_refl _⟩
  | cons b u =>
    by_cases hq : b = ascii '\''
    · simp only [if_pos hq]
      exact .inr ⟨_, rfl, le_refl _⟩
    by_cases hsl : b = ascii '\\'
    · simp only [if_neg hq, if_pos hsl]
      cases u with
      | nil => exact .inl ⟨by rw [hsl], rfl⟩
      | cons e w =>
        obtain ⟨parsed, hpsd, hle⟩ := charLiteralEscape_ok e w
        refine .inr ⟨parsed, hpsd, ?_⟩
        simp only [length_cons]
        omega
    · simp only [if_neg hq, if_neg hsl]
      refine .inr ⟨_, rfl, le_trans (charLiteralEnd_length_le _ _) ?_⟩
      exact le_of_lt (readNextUTF8Char_length_lt (cons_ne_nil b u))

theorem dropWhile_length_le (p : UInt8 → Bool) (it : Text) : (it.dropWhile p).length ≤ it.length :=
  (dropWhile_suffix p).length_le

theorem fractionalPart_length_le : (fractionalPart it).2.length ≤ it.length := by
  unfold fractionalPart
  split
  · refine le_trans (dropWhile_length_le _ _) ?_
    rw [length_drop]
    exact Nat.sub_le _ _
  · exact le_refl _

theorem exponentPart_length_le : (exponentPart it).2.length ≤ it.length := by
  unfold exponentPart
  split
  · refine le_trans (dropWhile_length_le _ _) ?_
    split <;> simp
  · exact le_refl _

theorem extractIntegerNumberChars_length_le (base : Nat) (it : Text) :
    (extractIntegerNumberChars base it).1.length ≤ it.length := by
  unfold extractIntegerNumberChars
  split
  · exact le_refl _
  · exact dropWhile_length_le _ _

theorem parseNumber_of_digit {b : UInt8} (t : Text) (hb : isDigit 10 b = true) :
    ∃ ty end_ errs, parseNumber (b :: t) = .ok (ty, end_, errs) ∧ end_.length ≤ t.length := by
  unfold parseNumber
  rw [peekNext_eq]
  simp only [bind, Except.bind]
  cases hbase : prefixedBase (b :: t) (b :: t)[1]? with
  | some base =>
    cases t with
    | nil =>
      unfold prefixedBase at hbase
      split at hbase <;> cases hbase
    | cons d u =>
      refine ⟨_, _, _, rfl, ?_⟩
      refine le_trans (extractIntegerNumberChars_length_le _ _) ?_
      simp
  | none =>
    refine ⟨_, _, _, rfl, ?_⟩
    refine le_trans (exponentPart_length_le _) (le_trans (fractionalPart_length_le _) ?_)
    rw [dropWhile_cons_of_pos hb]
    exact dropWhile_length_le _ _

theorem findFixedLexem_size {it : Text} {n s : Nat} {t : LexemType}
    (h : findFixedLexem it n = some (t, s)) : 1 ≤ s ∧ s ≤ n := by
  induction n with
  | zero => cases h
  | succ n ih =>
    rw [findFixedLexem] at h
    split at h
    · cases h
      omega
    · have := ih h
      omega

namespace LexState

theorem pushLexem_cases (size : Nat) (st : LexState) (ty : LexemType) (t it' : Text) :
    (∃ st', st.pushLexem size ty t it' = .next st' ∧ st'.it = it' ∧ st'.errors = st.errors) ∨
    (∃ st' e, st.pushLexem size ty t it' = .stop st' ∧ st'.errors = st.errors ++ [e] ∧
      e.text = columnLimitMessage) := by
  unfold pushLexem
  simp only
  split
  · exact .inr ⟨_, _, rfl, rfl, rfl⟩
  · exact .inl ⟨_, rfl, rfl, rfl⟩

theorem pushLiteral_cases (size : Nat) (st : LexState) (ty : LexemType) (t it' : Text) :
    (∃ st', st.pushLiteral size ty t it' = .next st' ∧ st'.it.length ≤ it'.length ∧
      st'.errors = st.errors) ∨
    (∃ st' e, st.pushLiteral size ty t it' = .stop st' ∧ st'.errors = st.errors ++ [e] ∧
      e.text = columnLimitMessage) := by
  unfold pushLiteral
  rcases st.pushLexem_cases size ty t it' with
    ⟨st', hpu, hit, herrs⟩ | ⟨st', e, hpu, herrs, he⟩
  · rw [hpu]
    simp only
    split
    · rcases st'.pushLexem_cases size .literalSuffix (consumed it' (identifierEnd it'))
        (identifierEnd it') with ⟨st'', hpu', hit', herrs'⟩ | ⟨st'', e, hpu', herrs', he⟩
      · refine .inl ⟨st'', hpu', ?_, herrs'.trans herrs⟩
        rw [hit']
        exact identifierEnd_length_le it'
      · exact .inr ⟨st'', e, hpu', by rw [herrs', herrs], he⟩
    · exact .inl ⟨st', rfl, by rw [hit], herrs⟩
  · rw [hpu]
    exact .inr ⟨st', e, rfl, herrs, he⟩

theorem step_eq (size : Nat) (st : LexState) : st.step size =
    match elementKind st.it st.it[1]? with
      | .lineComment => .ok (.next { st with it := skipLineComment st.it })
      | .comment => st.commentStep
      | .newline => .ok (st.newlineStep (getUTF8FirstChar st.it))
      | .whitespace => st.whitespaceStep
      | .string => do
        let parsed ← parseStringImpl st.it
        return (st.addErrors parsed.errors).pushLiteral size .string parsed.text parsed.it
      | .charLiteral => do
        let parsed ← parseCharLiteral st.it
        return (st.addErrors parsed.errors).pushLiteral size .charLiteral parsed.text parsed.it
      | .number => do
        let (type, end_, errors) ← parseNumber st.it
        return (st.addErrors errors).pushLiteral size type (consumed st.it end_) end_
      | .identifier =>
        .ok (st.pushLexem size .identifier (consumed st.it (identifierEnd st.it))
          (identifierEnd st.it))
      | .macroIdentifier => do
        let (type, end_) ← parseMacroIdentifier st.it
        return st.pushLexem size type (consumed st.it end_) end_
      | .fixed => st.fixedLexemStep size (getUTF8FirstChar st.it) := by
  unfold step
  rw [peekNext_eq]
  rfl

def AddsErrors (st : LexState) (r : StepResult) : Prop :=
  ∃ added, r.state.errors = st.errors ++ added ∧ ∀ st', r = .stop st' → added ≠ []

variable {st st' : LexState} {size : Nat}

theorem addsErrors_next {added : List LexSyntError}
    (h : st'.errors = st.errors ++ added) : AddsErrors st (.next st') :=
  ⟨added, h, fun _ hsto => nomatch hsto⟩

theorem addsErrors_stop {e : LexSyntError}
    (h : st'.errors = st.errors ++ [e]) : AddsErrors st (.stop st') :=
  ⟨[e], h, fun _ _ => cons_ne_nil e []⟩

theorem pushLexem_addsErrors (size : Nat) (st : LexState) (ty : LexemType) (t it' : Text) :
    AddsErrors st (st.pushLexem size ty t it') := by
  rcases st.pushLexem_cases size ty t it' with
    ⟨st', hpu, -, herrs⟩ | ⟨st', e, hpu, herrs, -⟩
  · rw [hpu]
    exact addsErrors_next (herrs.trans (append_nil _).symm)
  · rw [hpu]
    exact addsErrors_stop herrs

theorem pushLiteral_addsErrors (size : Nat) (st : LexState) (ts : List String)
    (ty : LexemType) (t it' : Text) :
    AddsErrors st ((st.addErrors ts).pushLiteral size ty t it') := by
  rcases (st.addErrors ts).pushLiteral_cases size ty t it' with
    ⟨st', hpu, -, herrs⟩ | ⟨st', e, hpu, herrs, -⟩
  · rw [hpu]
    exact addsErrors_next herrs
  · rw [hpu]
    refine ⟨ts.map (⟨·, st.srcLoc⟩) ++ [e], ?_, fun _ _ => by simp⟩
    rw [← append_assoc]
    exact herrs

theorem step_addsErrors {r : StepResult} (h : st.step size = .ok r) : AddsErrors st r := by
  rw [step_eq] at h
  generalize elementKind st.it st.it[1]? = k at h ⊢
  cases k with
  | lineComment =>
    cases h
    exact addsErrors_next (append_nil _).symm
  | comment =>
    obtain ⟨it, -, h⟩ := except_bind_ok h
    split at h
    · cases h
      exact addsErrors_stop rfl
    split at h
    · cases h
      exact addsErrors_stop rfl
    · cases h
      exact addsErrors_stop rfl
    · cases h
      split
      · exact addsErrors_next (append_nil _).symm
      · exact addsErrors_next rfl
  | newline =>
    simp only [newlineStep] at h
    split at h
    · cases h
      exact addsErrors_stop rfl
    · cases h
      exact addsErrors_next (append_nil _).symm
  | whitespace =>
    obtain ⟨it, -, h⟩ := except_bind_ok h
    simp only at h
    split at h
    · cases h
      exact addsErrors_stop rfl
    · cases h
      exact addsErrors_next (append_nil _).symm
  | string | charLiteral =>
    obtain ⟨parsed, -, h⟩ := except_bind_ok h
    cases h
    exact pushLiteral_addsErrors size st _ _ _ _
  | number =>
    obtain ⟨⟨t, end_, errors⟩, -, h⟩ := except_bind_ok h
    cases h
    exact pushLiteral_addsErrors size st _ _ _ _
  | identifier =>
    cases h
    exact pushLexem_addsErrors size st _ _ _
  | macroIdentifier =>
    obtain ⟨⟨t, end_⟩, -, h⟩ := except_bind_ok h
    cases h
    exact pushLexem_addsErrors size st _ _ _
  | fixed =>
    simp only [fixedLexemStep] at h
    split at h
    · obtain ⟨it, -, h⟩ := except_bind_ok h
      cases h
      exact pushLexem_addsErrors size st _ _ _
    · obtain ⟨it, -, h⟩ := except_bind_ok h
      cases h
      exact addsErrors_next rfl

theorem loop_errors {fuel : Nat} {r : LexState}
    (h : st.loop size fuel = .ok r) : st.errors <+: r.errors := by
  induction fuel generalizing st with
  | zero =>
    rw [loop] at h
    split at h
    · cases h
      exact prefix_refl _
    · cases h
  | succ fuel ih =>
    rw [loop] at h
    split at h
    · cases h
      exact prefix_refl _
    split at h
    · cases h
    · rename_i st' hst
      cases h
      obtain ⟨added, hadd, -⟩ := step_addsErrors hst
      exact ⟨added, hadd.symm⟩
    · rename_i st' hst
      obtain ⟨added, hadd, -⟩ := step_addsErrors hst
      exact (show st.errors <+: st'.errors from ⟨added, hadd.symm⟩).trans (ih h)

theorem step_next_spec (h : st.step size = .ok (.next st')) :
    match elementKind st.it st.it[1]? with
    | .lineComment => st' = { st with it := skipLineComment st.it }
    | .comment => ∃ it depth line column, st.column + 2 ≤ maxColumn ∧
        skipComment (st.it.drop 2) 1 st.line (st.column + 2) = .done it depth line column ∧
        st' = if depth = 0 then { st with it := it, line := line, column := column }
          else { st with it := it, line := line, column := column }.addErrors
            ["Lexical error: expected */"]
    | .newline => st.line + 1 ≤ maxLine ∧ st' = { st with
          it := skipSecondNewline (getUTF8FirstChar st.it) (readNextUTF8Char st.it).2
          line := st.line + 1
          column := 0 }
    | .whitespace => st.column + 1 ≤ maxColumn ∧
        st' = { st with it := st.it.drop 1, column := st.column + 1 }
    | .string =>
        (st.addErrors (parseStringLoop [] (st.it.drop 1)).errors).pushLiteral size .string
          (parseStringLoop [] (st.it.drop 1)).text (parseStringLoop [] (st.it.drop 1)).it = .next st'
    | .charLiteral => ∃ parsed, parseCharLiteral st.it = .ok parsed ∧
        (st.addErrors parsed.errors).pushLiteral size .charLiteral parsed.text parsed.it = .next st'
    | .number => ∃ type end_ errors, parseNumber st.it = .ok (type, end_, errors) ∧
        (st.addErrors errors).pushLiteral size type (consumed st.it end_) end_ = .next st'
    | .identifier =>
        st.pushLexem size .identifier (consumed st.it (identifierEnd st.it)) (identifierEnd st.it) =
          .next st'
    | .macroIdentifier => ∃ type end_, parseMacroIdentifier st.it = .ok (type, end_) ∧
        st.pushLexem size type (consumed st.it end_) end_ = .next st'
    | .fixed =>
        (∃ type s, findFixedLexem st.it (min maxFixedLexemSize st.it.length) = some (type, s) ∧
          st.pushLexem size type (st.it.take s) (st.it.drop s) = .next st') ∨
        (findFixedLexem st.it (min maxFixedLexemSize st.it.length) = none ∧
          st' = { st.addErrors ["Lexical error: unrecognized character: " ++
            toString (getUTF8FirstChar st.it)] with it := st.it.drop 1 }) := by
  rw [step_eq] at h
  generalize elementKind st.it st.it[1]? = k at h ⊢
  cases k with
  | lineComment =>
    cases h
    rfl
  | comment =>
    obtain ⟨it, hit, h⟩ := except_bind_ok h
    rw [advance_eq_ok hit] at h
    split at h
    · cases h
    · split at h
      · cases h
      · cases h
      · rename_i it depth line column hsk
        cases h
        exact ⟨it, depth, line, column, by omega, hsk, rfl⟩
  | newline =>
    simp only [newlineStep] at h
    split at h
    · cases h
    · cases h
      exact ⟨by omega, rfl⟩
  | whitespace =>
    obtain ⟨it, hit, h⟩ := except_bind_ok h
    rw [advance_eq_ok hit] at h
    simp only at h
    split at h
    · cases h
    · cases h
      exact ⟨by omega, rfl⟩
  | string =>
    obtain ⟨parsed, hpsd, h⟩ := except_bind_ok h
    obtain ⟨it, hit, hlp⟩ := except_bind_ok hpsd
    rw [advance_eq_ok hit] at hlp
    cases hlp
    exact Except.ok.inj h
  | charLiteral =>
    obtain ⟨parsed, hpsd, h⟩ := except_bind_ok h
    exact ⟨parsed, hpsd, Except.ok.inj h⟩
  | number =>
    obtain ⟨⟨type, end_, errors⟩, hpsd, h⟩ := except_bind_ok h
    exact ⟨type, end_, errors, hpsd, Except.ok.inj h⟩
  | identifier =>
    exact Except.ok.inj h
  | macroIdentifier =>
    obtain ⟨⟨type, end_⟩, hpsd, h⟩ := except_bind_ok h
    exact ⟨type, end_, hpsd, Except.ok.inj h⟩
  | fixed =>
    simp only [fixedLexemStep] at h
    split at h
    · rename_i type s hfd
      obtain ⟨it, hit, h⟩ := except_bind_ok h
      rw [advance_eq_ok hit] at h
      exact .inl ⟨type, s, hfd, Except.ok.inj h⟩
    · rename_i hfd
      obtain ⟨it, hit, h⟩ := except_bind_ok h
      rw [advance_eq_ok hit] at h
      cases h
      exact .inr ⟨hfd, rfl⟩

end LexState

end USprache.LexSynt
