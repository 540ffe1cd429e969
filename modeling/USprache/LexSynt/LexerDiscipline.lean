import USprache.LexSynt.LexerMemory

/-!
# When the lexical analyzer keeps the discipline

A turn of the main loop over an element of none of the kinds that go wrong makes
progress and reports what is cut off.  Over every other element the analysis
faults, never ends or says nothing.
-/

namespace USprache.LexSynt

open List Bool Except

namespace LexState

variable {size : Nat} {st : LexState}

def Progresses (it : Text) (result : Except Fault StepResult) : Prop :=
  ∃ r, result = .ok r ∧ ∀ st', r = .next st' → st'.it.length < it.length

variable {it it' : Text} {b : UInt8} {text : Text} {type : LexemType} {st' : LexState}

theorem progresses_pushLexem (type : LexemType) (text : Text)
    (h : it'.length < it.length) : Progresses it (.ok (st.pushLexem size type text it')) := by
  refine ⟨_, rfl, ?_⟩
  intro st'' hnx
  rcases st.pushLexem_cases size type text it' with ⟨st', hpu, hit, -⟩ | ⟨st', e, hpu, -⟩
  · rw [hpu] at hnx
    cases hnx
    rw [hit]
    exact h
  · rw [hpu] at hnx
    cases hnx

theorem progresses_pushLiteral (type : LexemType) (text : Text)
    (h : it'.length < it.length) : Progresses it (.ok (st.pushLiteral size type text it')) := by
  refine ⟨_, rfl, ?_⟩
  intro st'' hnx
  rcases st.pushLiteral_cases size type text it' with ⟨st', hpu, hit, -⟩ | ⟨st', e, hpu, -⟩
  · rw [hpu] at hnx
    cases hnx
    exact lt_of_le_of_lt hit h
  · rw [hpu] at hnx
    cases hnx

theorem length_ge_two_of_next (h : it[1]? = some b) : 2 ≤ it.length := by
  by_contra hlt
  rw [getElem?_eq_none (by omega)] at h
  cases h

theorem commentStep_progresses (hlen : 2 ≤ st.it.length) : Progresses st.it st.commentStep := by
  unfold commentStep
  rw [advance_of_le hlen]
  simp only [bind, Except.bind]
  split
  · exact ⟨_, rfl, fun _ h => nomatch h⟩
  cases hsk : skipComment (st.it.drop 2) 1 st.line (st.column + 2) with
  | lineLimit col | columnLimit l => exact ⟨_, rfl, fun _ h => nomatch h⟩
  | done it dep l col =>
    refine ⟨_, rfl, ?_⟩
    intro st' hnx
    cases hnx
    have hle := skipComment_length_le hsk
    rw [length_drop] at hle
    have hit : ∀ st'' : LexState, (if dep = 0 then st'' else
        st''.addErrors ["Lexical error: expected */"]).it = st''.it := by
      intro st''
      split <;> rfl
    rw [hit]
    show it.length < st.it.length
    omega

theorem newlineStep_progresses (hne : st.it ≠ []) (c : Nat) :
    Progresses st.it (.ok (st.newlineStep c)) := by
  refine ⟨_, rfl, ?_⟩
  intro st' hnx
  unfold newlineStep at hnx
  split at hnx
  · cases hnx
  · cases hnx
    exact lt_of_le_of_lt (skipSecondNewline_suffix _ _).length_le (readNextUTF8Char_length_lt hne)

theorem whitespaceStep_progresses (hne : st.it ≠ []) : Progresses st.it st.whitespaceStep := by
  have hpos := length_pos_iff.2 hne
  unfold whitespaceStep
  rw [advance_of_le hpos]
  simp only [pure]
  split
  · exact ⟨_, rfl, fun _ h => nomatch h⟩
  · refine ⟨_, rfl, ?_⟩
    intro st' hnx
    cases hnx
    show (st.it.drop 1).length < st.it.length
    rw [length_drop]
    omega

theorem fixedLexemStep_progresses (hne : st.it ≠ []) (c : Nat) :
    Progresses st.it (st.fixedLexemStep size c) := by
  have hpos := length_pos_iff.2 hne
  unfold fixedLexemStep
  cases hfd : findFixedLexem st.it (min maxFixedLexemSize st.it.length) with
  | some found =>
    obtain ⟨type, s⟩ := found
    have hsz := findFixedLexem_size hfd
    have hle : s ≤ st.it.length := le_trans hsz.2 (min_le_right _ _)
    simp only [advance_of_le hle]
    refine progresses_pushLexem _ _ ?_
    rw [length_drop]
    omega
  | none =>
    simp only [advance_of_le hpos]
    refine ⟨_, rfl, ?_⟩
    intro st' hnx
    cases hnx
    show (st.it.drop 1).length < st.it.length
    rw [length_drop]
    omega

theorem parseMacroIdentifier_ok (hne : it ≠ []) :
    ∃ type end_, parseMacroIdentifier it = .ok (type, end_) ∧ end_.length < it.length := by
  have hpos := length_pos_iff.2 hne
  unfold parseMacroIdentifier
  simp only [advance_of_le hpos, bind, Except.bind]
  split
  · rename_i hst
    rw [advance_of_le (length_pos_iff.2 hst.1)]
    refine ⟨_, _, rfl, lt_of_le_of_lt (identifierEnd_length_le _) ?_⟩
    rw [length_drop, length_drop]
    omega
  · refine ⟨_, _, rfl, lt_of_le_of_lt (identifierEnd_length_le _) ?_⟩
    rw [length_drop]
    omega

theorem step_progresses (size : Nat) (hne : st.it ≠ []) (hok : elementPassed st.it = true) :
    Progresses st.it (st.step size) := by
  have hkind := elementKind_spec st.it st.it[1]?
  rw [elementPassed] at hok
  rw [step_eq]
  cases hk : elementKind st.it st.it[1]? with
  | lineComment =>
    rw [hk] at hkind
    refine ⟨_, rfl, ?_⟩
    intro st' hnx
    cases hnx
    exact skipLineComment_length_lt hne (by rw [hkind.1]; decide)
  | comment =>
    rw [hk] at hkind
    exact commentStep_progresses (length_ge_two_of_next hkind.2)
  | newline => exact newlineStep_progresses hne _
  | whitespace => exact whitespaceStep_progresses hne
  | string =>
    obtain ⟨q, t, hit⟩ := exists_cons_of_ne_nil hne
    simp only [parseStringImpl, advance_of_le (length_pos_iff.2 hne)]
    refine progresses_pushLiteral _ _ (lt_of_le_of_lt (parseStringLoop_length_le _ _) ?_)
    rw [hit]
    simp
  | charLiteral =>
    obtain ⟨q, t, hit⟩ := exists_cons_of_ne_nil hne
    rw [hk, hit] at hok
    rcases parseCharLiteral_spec q t with ⟨ht, -⟩ | ⟨parsed, hpsd, hle⟩
    · exact absurd ht (bne_iff_ne.1 hok)
    · simp only [hit, hpsd]
      refine progresses_pushLiteral _ _ ?_
      simp only [length_cons]
      omega
  | number =>
    obtain ⟨b, t, hit⟩ := exists_cons_of_ne_nil hne
    rw [hk, hit] at hok
    obtain ⟨type, end_, errors, hnum, hle⟩ := parseNumber_of_digit (b := b) t hok
    rw [hit, hnum]
    refine progresses_pushLiteral _ _ ?_
    simp only [length_cons]
    omega
  | identifier =>
    rw [hk] at hkind
    refine progresses_pushLexem _ _ (identifierEnd_length_lt hne ?_)
    rw [isIdentifierChar, hkind]
    rfl
  | macroIdentifier =>
    obtain ⟨type, end_, hide, hlt⟩ := parseMacroIdentifier_ok hne
    simp only [hide]
    exact progresses_pushLexem _ _ hlt
  | fixed => exact fixedLexemStep_progresses hne _

theorem loop_ok (fuel : Nat) (hrch : Reached text st) (hf : st.it.length ≤ fuel)
    (hok : ∀ st', Reached text st' → st'.it ≠ [] → elementPassed st'.it = true) :
    ∃ res, st.loop text.length fuel = .ok res := by
  induction fuel generalizing st with
  | zero =>
    have hnil : st.it = [] := length_eq_zero_iff.1 (Nat.le_zero.1 hf)
    rw [loop, if_pos hnil]
    exact ⟨_, rfl⟩
  | succ fuel ih =>
    rw [loop]
    by_cases hnil : st.it = []
    · rw [if_pos hnil]
      exact ⟨_, rfl⟩
    · rw [if_neg hnil]
      obtain ⟨r, hst, hlt⟩ := step_progresses text.length hnil (hok st hrch hnil)
      rw [hst]
      cases r with
      | stop st' => exact ⟨_, rfl⟩
      | next st' =>
        have := hlt st' rfl
        exact ih (hrch.step hnil hst) (by omega)

theorem pushLiteral_errors (size : Nat) (st : LexState) (type : LexemType) (text it' : Text) :
    ∃ added, (st.pushLiteral size type text it').state.errors = st.errors ++ added ∧
      ∀ e ∈ added, e.text = columnLimitMessage := by
  rcases st.pushLiteral_cases size type text it' with
    ⟨st', hpu, -, herrs⟩ | ⟨st', e, hpu, herrs, he⟩
  · rw [hpu]
    exact ⟨[], by simp [StepResult.state, herrs], by simp⟩
  · rw [hpu]
    exact ⟨[e], herrs, by simpa using he⟩

theorem reports_of_literal {ts : List String}
    (hst : st.step size = .ok ((st.addErrors ts).pushLiteral size type text it'))
    (herr : ∃ t ∈ ts, t ≠ columnLimitMessage) : Reports size st := by
  obtain ⟨t, ht, hne⟩ := herr
  obtain ⟨added, hadd, -⟩ := pushLiteral_errors size (st.addErrors ts) type text it'
  refine ⟨_, ts.map (⟨·, st.srcLoc⟩) ++ added, ⟨t, st.srcLoc⟩, hst, ?_, ?_, hne⟩
  · rw [hadd, addErrors, append_assoc]
  · exact mem_append_left _ (mem_map.2 ⟨t, ht, rfl⟩)

theorem not_reports_of_quiet {r : StepResult} {added : List LexSyntError}
    (hst : st.step size = .ok r) (hadd : r.state.errors = st.errors ++ added)
    (hqui : ∀ e ∈ added, e.text = columnLimitMessage) : ¬Reports size st := by
  rintro ⟨r', added', e, hst', hadd', he, hne⟩
  rw [hst] at hst'
  cases hst'
  rw [hadd] at hadd'
  have := append_cancel_left hadd'
  subst this
  exact hne (hqui e he)

theorem commentStep_reports (hlen : 2 ≤ st.it.length) (hst : st.step size = st.commentStep)
    (hcut : commentCutOff (st.it.drop 2) 1 = true) :
    (∃ st', st.commentStep = .ok (.stop st')) ∨ Reports size st := by
  unfold Reports
  rw [hst]
  unfold commentStep
  rw [advance_of_le hlen]
  simp only [bind, Except.bind]
  split
  · exact .inl ⟨_, rfl⟩
  cases hsk : skipComment (st.it.drop 2) 1 st.line (st.column + 2) with
  | lineLimit col | columnLimit l => exact .inl ⟨_, rfl⟩
  | done it depth l col =>
    have hdep := skipComment_depth Nat.one_ne_zero hsk hcut
    have hmes : "Lexical error: expected */" ≠ columnLimitMessage := by decide +kernel
    simp only [if_neg hdep]
    exact .inr ⟨_, _, _, rfl, rfl, mem_singleton_self _, hmes⟩

theorem step_reports (size : Nat) (hne : st.it ≠ []) (hok : elementOk st.it = true)
    (hcut : cutOff st.it = true) : StopsInComment size st ∨ Reports size st := by
  have hkind := elementKind_spec st.it st.it[1]?
  have hst := step_eq size st
  obtain ⟨hchar, hok⟩ := and_eq_true_iff.1 hok
  rw [not_eq_true'] at hchar
  unfold cutOff at hcut
  generalize hk : elementKind st.it st.it[1]? = k at hok hcut hkind hst ⊢
  cases k with
  | lineComment =>
    simp only [hcut] at hok
    cases hok
  | comment =>
    rcases commentStep_reports (length_ge_two_of_next hkind.2) hst hcut with hsto | hrep
    · exact .inl ⟨hk, by rw [hst]; exact hsto⟩
    · exact .inr hrep
  | string =>
    simp only [parseStringImpl, advance_of_le (length_pos_iff.2 hne)] at hst
    have herrs := (parseStringLoop_errors [] (st.it.drop 1)).2 (not_eq_true' _ ▸ hok) hcut
    refine .inr (reports_of_literal hst ⟨"expected 4 hex digits", ?_, by decide +kernel⟩)
    rw [herrs]
    exact mem_singleton_self _
  | charLiteral =>
    obtain ⟨q, t, hit⟩ := exists_cons_of_ne_nil hne
    rw [hit] at hok hcut hst
    obtain ⟨parsed, hpsd, herr⟩ := parseCharLiteral_errors (q := q) (t := t) hcut (bne_iff_ne.1 hok)
    rw [hpsd] at hst
    exact .inr (reports_of_literal hst herr)
  | number =>
    obtain ⟨type, end_, hnum⟩ := parseNumber_errors hcut
    rw [hnum] at hst
    exact .inr (reports_of_literal hst ⟨_, mem_singleton_self _, by decide +kernel⟩)
  | _ =>
    simp only [hchar] at hcut
    cases hcut

theorem skipComment_column_le {dep l col dep' l' col' : Nat} (hcol : col ≤ maxColumn)
    (h : skipComment it dep l col = .done it' dep' l' col') :
    col' ≤ maxColumn := by
  fun_induction skipComment it dep l col with
  | case1 => cases h; exact hcol
  | case2 => cases h
  | case3 => cases h; omega
  | case4 it dep l col hnil hcl hlim hla ih | case6 it dep l col hnil hcl hopen hlim ih
  | case10 it dep l col hnil hcl hopen hnl hlim ih => exact ih (by omega) h
  | case5 => cases h
  | case7 => cases h
  | case8 it dep l col hnil hcl hopen hnl hlim ih => exact ih (by decide) h
  | case9 => cases h

theorem pushLexem_column_le
    (h : st.pushLexem size type text it' = .next st') : st'.column ≤ maxColumn := by
  unfold pushLexem at h
  simp only at h
  split at h
  · cases h
  · rename_i hlim
    cases h
    exact le_of_not_gt hlim

theorem pushLiteral_column_le
    (h : st.pushLiteral size type text it' = .next st') : st'.column ≤ maxColumn := by
  unfold pushLiteral at h
  cases hpu : st.pushLexem size type text it' with
  | stop st'' =>
    rw [hpu] at h
    cases h
  | next st'' =>
    rw [hpu] at h
    simp only at h
    split at h
    · exact pushLexem_column_le h
    · cases h
      exact pushLexem_column_le hpu

theorem step_column_le (hcol : st.column ≤ maxColumn)
    (h : st.step size = .ok (.next st')) : st'.column ≤ maxColumn := by
  have hsp := step_next_spec h
  generalize elementKind st.it st.it[1]? = k at hsp ⊢
  cases k with
  | lineComment =>
    rw [hsp]
    exact hcol
  | comment =>
    obtain ⟨it, depth, line, column, hlim, hsk, rfl⟩ := hsp
    have hle := skipComment_column_le hlim hsk
    split
    · exact hle
    · exact hle
  | newline =>
    rw [hsp.2]
    exact Nat.zero_le _
  | whitespace =>
    rw [hsp.2]
    exact hsp.1
  | string =>
    exact pushLiteral_column_le hsp
  | charLiteral =>
    obtain ⟨parsed, -, hpu⟩ := hsp
    exact pushLiteral_column_le hpu
  | number =>
    obtain ⟨type, end_, errors, -, hpu⟩ := hsp
    exact pushLiteral_column_le hpu
  | identifier =>
    exact pushLexem_column_le hsp
  | macroIdentifier =>
    obtain ⟨type, end_, -, hpu⟩ := hsp
    exact pushLexem_column_le hpu
  | fixed =>
    rcases hsp with ⟨type, s, -, hpu⟩ | ⟨-, rfl⟩
    · exact pushLexem_column_le hpu
    · exact hcol

theorem reached_column_le (h : Reached text st) : st.column ≤ maxColumn := by
  induction h with
  | start => exact Nat.zero_le _
  | step _ _ hst ih => exact step_column_le ih hst

/-- From a state that is reached the main loop ends if it ends from the first one. -/
theorem loop_ok_of_reached (h : Reached text st)
    (hends : ∃ fuel r, lexicalAnalysis fuel text = .ok r) :
    ∃ fuel r, st.loop text.length fuel = .ok r := by
  induction h with
  | start => exact hends
  | @step st st' _ hne hst ih =>
    obtain ⟨fuel, r, hlp⟩ := ih
    cases fuel with
    | zero =>
      rw [loop, if_neg hne] at hlp
      cases hlp
    | succ fuel =>
      rw [loop, if_neg hne, hst] at hlp
      exact ⟨fuel, r, hlp⟩

theorem isDigit_ten (b : UInt8) : isDigit 10 b = isNumberStartChar b.toNat := by
  unfold isDigit tryParseDigit isNumberStartChar
  simp only [show '0'.toNat = 48 from rfl, show '9'.toNat = 57 from rfl]
  rw [Bool.eq_iff_iff]
  split_ifs <;> simp <;> omega

theorem encodedDigit_byte {t : Text}
    (hc : isNumberStartChar (getUTF8FirstChar (b :: t)) = true) (hb : isDigit 10 b = false) :
    0x80 ≤ b.toNat := by
  by_contra hlt
  rw [getUTF8FirstChar, readNextUTF8Char_ascii (by omega), ← isDigit_ten, hb] at hc
  cases hc

theorem parseNumber_of_encodedDigit (t : Text) (hb : isDigit 10 b = false)
    (hlg : 0x80 ≤ b.toNat) : parseNumber (b :: t) = .ok (.integerNumber, b :: t, []) := by
  have hbyte : ∀ c : Char, c.toNat < 0x80 → byteAt (b :: t) 0 ≠ c.toNat := by
    intro c hc
    rw [byteAt_cons_zero]
    omega
  have hbase : prefixedBase (b :: t) (b :: t)[1]? = none := if_neg (hbyte '0' (by decide))
  have hdr : (b :: t).dropWhile (isDigit 10) = b :: t := dropWhile_cons_of_neg (by simp [hb])
  have hfr : fractionalPart (b :: t) = (false, b :: t) :=
    if_neg (fun h => hbyte '.' (by decide) h.2)
  have hexponent : exponentPart (b :: t) = (false, b :: t) :=
    if_neg (fun h => h.2.elim (hbyte 'e' (by decide)) (hbyte 'E' (by decide)))
  unfold parseNumber
  rw [peekNext_eq]
  simp only [bind, Except.bind, hbase, hdr, hfr, hexponent]
  rfl

theorem pushLexem_empty (size : Nat) (type : LexemType) (text : Text)
    (hcol : st.column ≤ maxColumn) :
    ∃ st', st.pushLexem size type text st.it = .next st' ∧ st'.it = st.it ∧
      st'.column = st.column := by
  have hc : countCodePoints (consumed st.it st.it) = 0 := by
    rw [consumed, countCodePoints, dif_neg (by simp)]
  have hwrap : toUInt32 st.column = st.column :=
    toUInt32_of_lt (lt_of_le_of_lt hcol (by decide))
  unfold pushLexem
  simp only [hc, add_zero, hwrap, if_neg (Nat.not_lt.2 hcol)]
  exact ⟨_, rfl, rfl, rfl⟩

theorem step_of_encodedDigit (size : Nat) (hne : st.it ≠ []) (hcol : st.column ≤ maxColumn)
    (hk : elementKind st.it st.it[1]? = .number) (hb : isDigit 10 (st.it.getD 0 0) = false) :
    ∃ st', st.step size = .ok (.next st') ∧ st'.it = st.it ∧ st'.column = st.column := by
  obtain ⟨b, t, hit⟩ := exists_cons_of_ne_nil hne
  rw [hit] at hb
  have hc : isNumberStartChar (getUTF8FirstChar st.it) = true := by
    have hsp := elementKind_spec st.it st.it[1]?
    rw [hk] at hsp
    exact hsp
  have hnum : parseNumber st.it = .ok (.integerNumber, st.it, []) := by
    rw [hit] at hc ⊢
    exact parseNumber_of_encodedDigit t hb (encodedDigit_byte hc hb)
  have hsuf : isIdentifierStartChar (getUTF8FirstChar st.it) = false := by
    rw [isNumberStartChar, and_eq_true, decide_eq_true_iff, decide_eq_true_iff] at hc
    have h9 : '9'.toNat < 'A'.toNat := by decide
    have ha : 'A'.toNat < 'a'.toNat := by decide
    have hA : 'a'.toNat < 0xC0 := by decide
    unfold isIdentifierStartChar
    simp only [or_eq_false_iff, and_eq_false_iff, decide_eq_false_iff_not]
    omega
  obtain ⟨st', hpu, hit', hcol'⟩ :=
    (st.addErrors []).pushLexem_empty size .integerNumber (consumed st.it st.it) hcol
  refine ⟨st', ?_, hit', hcol'⟩
  rw [step_eq, hk, hnum]
  show ok (pushLiteral _ _ _ _ (st.addErrors []).it) = _
  rw [pushLiteral, hpu]
  rw [show (st.addErrors []).it = st.it from rfl, hsuf]
  rfl

theorem loop_of_encodedDigit (size fuel : Nat) (hne : st.it ≠ []) (hcol : st.column ≤ maxColumn)
    (hk : elementKind st.it st.it[1]? = .number) (hb : isDigit 10 (st.it.getD 0 0) = false) :
    st.loop size fuel = .error .outOfFuel := by
  induction fuel generalizing st with
  | zero => rw [loop, if_neg hne]
  | succ fuel ih =>
    obtain ⟨st', hst, hit, hcol'⟩ := step_of_encodedDigit size hne hcol hk hb
    rw [loop, if_neg hne, hst]
    exact ih (hit ▸ hne) (hcol' ▸ hcol) (hit ▸ hk) (hit ▸ hb)

end LexState

open LexState

theorem not_ends_of_not_passed {text : Text} {st : LexState} (hrch : Reached text st)
    (hne : st.it ≠ []) (hpsd : elementPassed st.it = false) :
    ¬∃ fuel r, lexicalAnalysis fuel text = .ok r := by
  intro hends
  obtain ⟨fuel, r, hlp⟩ := loop_ok_of_reached hrch hends
  have hst := step_eq text.length st
  rw [elementPassed] at hpsd
  cases hk : elementKind st.it st.it[1]? with
  | charLiteral =>
    rw [hk] at hpsd hst
    obtain ⟨q, t, hit⟩ := exists_cons_of_ne_nil hne
    rw [hit] at hpsd hst
    have ht : t = [ascii '\\'] := by simpa using hpsd
    have hfau : parseCharLiteral (q :: t) = .error .movePastEnd := by
      rw [ht]
      rfl
    rw [hfau] at hst
    cases fuel with
    | zero =>
      rw [loop, if_neg hne] at hlp
      cases hlp
    | succ fuel =>
      rw [loop, if_neg hne, hst] at hlp
      cases hlp
  | number =>
    rw [hk] at hpsd
    rw [loop_of_encodedDigit _ fuel hne (reached_column_le hrch) hk (by simpa using hpsd)] at hlp
    cases hlp
  | _ =>
    rw [hk] at hpsd
    cases hpsd

/-- The analysis of a byte string ends without a fault exactly if every element that the
main loop reaches is passed.  Then it takes at most one turn for each byte. -/
theorem lexicalAnalysis_ends_iff (text : Text) : (∃ fuel r, lexicalAnalysis fuel text = .ok r) ↔
    ∀ st, Reached text st → st.it ≠ [] → elementPassed st.it = true := by
  constructor
  · intro hends st hrch hne
    by_contra hpsd
    exact not_ends_of_not_passed hrch hne (eq_false_iff.2 hpsd) hends
  · intro hpsd
    exact ⟨_, loop_ok _ .start (le_refl _) hpsd⟩

theorem not_disciplined {text : Text} {st : LexState} (hrch : Reached text st)
    (hne : st.it ≠ []) (hok : elementOk st.it = false) : ¬Disciplined text := by
  rintro ⟨hends, hrep⟩
  -- An element that is cut off and not reported, other than a multiline comment.
  have hsil : cutOff st.it = true → elementKind st.it st.it[1]? ≠ .comment →
      ¬Reports text.length st → False := by
    intro hcut hkind hqui
    rcases hrep st hrch hne hcut with ⟨hcom, -⟩ | hrepo
    · exact hkind hcom
    · exact hqui hrepo
  have hst := step_eq text.length st
  by_cases hchar : charCutOff st.it = true
  · have hk := elementKind_of_charCutOff hchar st.it[1]?
    have hcut : cutOff st.it = true := by
      unfold cutOff
      rw [hk]
      exact hchar
    rw [hk] at hst
    refine hsil hcut (by rw [hk]; decide) ?_
    simp only [whitespaceStep, advance_of_le (length_pos_iff.2 hne), bind, Except.bind] at hst
    split at hst
    · exact not_reports_of_quiet hst rfl (by simp)
    · exact not_reports_of_quiet hst (append_nil _).symm (by simp)
  rw [elementOk, eq_false_iff.2 hchar] at hok
  generalize hk : elementKind st.it st.it[1]? = k at hok hst ⊢
  cases k with
  | lineComment =>
    have hcut : cutOff st.it = true := by
      unfold cutOff
      rw [hk]
      simpa using hok
    exact hsil hcut (by rw [hk]; decide) (not_reports_of_quiet hst (append_nil _).symm (by simp))
  | string =>
    have hends : stringEnds false (st.it.drop 1) = true := by simpa [stringEndsSilently] using hok
    obtain ⟨hcut, herrs⟩ := (parseStringLoop_errors [] (st.it.drop 1)).1 hends
    have hcut : cutOff st.it = true := by
      unfold cutOff
      rw [hk]
      exact hcut
    simp only [parseStringImpl, advance_of_le (length_pos_iff.2 hne), bind, Except.bind, pure,
      Except.pure, herrs] at hst
    obtain ⟨added, hadd, hlim⟩ := pushLiteral_errors text.length (st.addErrors []) .string
      (parseStringLoop [] (st.it.drop 1)).text (parseStringLoop [] (st.it.drop 1)).it
    refine hsil hcut (by rw [hk]; decide) (not_reports_of_quiet hst ?_ hlim)
    rw [hadd, addErrors, map_nil, append_nil]
  | charLiteral | number =>
    refine not_ends_of_not_passed hrch hne ?_ hends
    rw [elementPassed, hk]
    simpa using hok
  | _ =>
    simp at hok

/-- The analysis of a byte string ends without a fault, and reports every element
that the end of the text cuts off, exactly if every element that the main loop
reaches is of none of the kinds that go wrong. -/
theorem disciplined_iff (text : Text) :
    Disciplined text ↔ ∀ st, Reached text st → st.it ≠ [] → elementOk st.it = true := by
  constructor
  · intro hdisciplined st hreached hne
    by_contra hok
    exact not_disciplined hreached hne (eq_false_iff.2 hok) hdisciplined
  · intro hok
    refine ⟨⟨_, loop_ok _ .start (le_refl _) (fun st hreached hne =>
      elementPassed_of_elementOk (hok st hreached hne))⟩, ?_⟩
    intro st hreached hne hcut
    exact step_reports _ hne (hok st hreached hne) hcut

/-- A char literal that ends behind its backslash is read past the end. -/
theorem not_disciplined_cut_off_escape : lexicalAnalysis 2 (asciiText "'\\") = .error .movePastEnd ∧
    ¬Disciplined (asciiText "'\\") :=
  ⟨by decide, not_disciplined .start (by decide) (by decide)⟩

theorem not_disciplined_encoded_digit :
    (∀ fuel, lexicalAnalysis fuel [0xC0, 0xB0] = .error .outOfFuel) ∧
      ¬Disciplined [0xC0, 0xB0] := by
  refine ⟨?_, not_disciplined .start (by decide) (by decide)⟩
  intro fuel
  exact loop_of_encodedDigit _ fuel (by decide) (Nat.zero_le _) (by decide) (by decide)

end USprache.LexSynt
