import USprache.LexSynt.LexerPositions

/-!
# Faithful positions of lexems

The invariant of the main loop on encoded text: the position is on the line that
the analyzer counts and, unless the column is stale, at the column it counts.
-/

namespace USprache.LexSynt

open List Bool

namespace LexState

/-- Lexems lead to their bytes and so does the current position, if the column is not
stale. -/
structure Positioned (chars : List Char) (st : LexState) (stale : Bool) : Prop where
  lexems : ∀ lexem ∈ st.lexems, PositionFaithful (encode chars) lexem
  position : ∃ s, st.it = encode s ∧ OnLine chars st.line s ∧
    (stale = false → AtColumn chars st.line st.column s)

variable {chars : List Char} {st st' : LexState} {stale : Bool}

theorem Positioned.encoded (h : Positioned chars st stale) : Encoded st.it := by
  obtain ⟨s, hit, -⟩ := h.position
  exact ⟨s, hit⟩

variable {type : LexemType} {text it' : Text}

theorem Positioned.pushLexem (h : Positioned chars st false) (hsz : (encode chars).length < 2 ^ 32)
    (hbdy : Boundary st.it it') (hno : containsNewline (consumed st.it it') = false)
    (hpu : st.pushLexem (encode chars).length type text it' = .next st') :
    Positioned chars st' false := by
  obtain ⟨s, hit, -, hat⟩ := h.position
  have hat := hat rfl
  rw [hit] at hbdy hno
  obtain ⟨passed, r, rfl, rfl, hcsd⟩ := hbdy.passed
  rw [hcsd] at hno
  have hpsd := no_newline_of_containsNewline hno
  have hat' := hat.advance passed hpsd
  have hwrap : toUInt32 (st.column + passed.length) = st.column + passed.length := by
    have := hat'.column_le
    exact toUInt32_of_lt (by omega)
  unfold LexState.pushLexem at hpu
  simp only [hit, hcsd, countCodePoints_encode, hwrap] at hpu
  split at hpu
  · cases hpu
  cases hpu
  refine ⟨?_, r, rfl, hat'.onLine, fun _ => hat'⟩
  intro lx hlx
  rcases mem_append.1 hlx with hlx | hlx
  · exact h.lexems lx hlx
  · rw [mem_singleton.1 hlx]
    exact hat.position hsz

theorem consumed_encode (passed r : List Char) :
    consumed (encode (passed ++ r)) (encode r) = encode passed := by
  rw [consumed, encode_append, length_append, Nat.add_sub_cancel, take_left]

theorem containsNewline_consumed {it it'' : Text} (h : Encoded it) (h1 : Boundary it it')
    (h2 : Boundary it' it'') :
    containsNewline (consumed it it'') =
      (containsNewline (consumed it it') || containsNewline (consumed it' it'')) := by
  obtain ⟨s, rfl⟩ := h
  obtain ⟨passed1, rest1, rfl, rfl, -⟩ := h1.passed
  obtain ⟨passed2, rest2, rfl, rfl, -⟩ := h2.passed
  rw [consumed_encode, consumed_encode, ← append_assoc, consumed_encode]
  unfold containsNewline
  rw [anyCodePoint_encode, anyCodePoint_encode, anyCodePoint_encode, any_append]

theorem Positioned.pushLiteral
    (h : Positioned chars st false) (hsz : (encode chars).length < 2 ^ 32)
    (hbdy : Boundary st.it it')
    (hpu : st.pushLiteral (encode chars).length type text it' = .next st')
    (hno : containsNewline (consumed st.it st'.it) = false) : Positioned chars st' false := by
  unfold LexState.pushLiteral at hpu
  rcases st.pushLexem_cases (encode chars).length type text it' with
    ⟨st1, hfst, hit1, -⟩ | ⟨st1, e, hfst, -⟩
  · rw [hfst] at hpu
    simp only at hpu
    split at hpu
    · -- The suffix is a lexem of its own.
      have hsuf := boundary_identifierEnd hbdy.encoded
      rcases st1.pushLexem_cases (encode chars).length .literalSuffix
          (consumed it' (identifierEnd it')) (identifierEnd it') with
        ⟨st2, hsnd, hit2, -⟩ | ⟨st2, e, hsnd, -⟩
      · have hst2 : st2 = st' := by
          rw [hsnd] at hpu
          exact StepResult.next.inj hpu
        subst hst2
        rw [hit2, containsNewline_consumed h.encoded hbdy hsuf, or_eq_false_iff] at hno
        have h1 := h.pushLexem hsz hbdy hno.1 hfst
        exact h1.pushLexem hsz (hit1 ▸ hsuf) (hit1 ▸ hno.2) hsnd
      · rw [hsnd] at hpu
        cases hpu
    · cases hpu
      rw [hit1] at hno
      exact h.pushLexem hsz hbdy hno hfst
  · rw [hfst] at hpu
    cases hpu

theorem it_of_pushLexem {sz : Nat} (hpu : st.pushLexem sz type text it' = .next st') :
    st'.it = it' := by
  rcases st.pushLexem_cases sz type text it' with ⟨st1, hpu', h, -⟩ | ⟨st1, e, hpu', -⟩
  · rw [hpu] at hpu'
    cases hpu'
    exact h
  · rw [hpu] at hpu'
    cases hpu'

/-- A literal that is followed by another turn has no errors, if there are none
afterwards. -/
theorem texts_nil_of_pushLiteral {sz : Nat} {ts : List String}
    (hpu : (st.addErrors ts).pushLiteral sz type text it' = .next st')
    (herrs : st'.errors = []) : ts = [] := by
  rcases (st.addErrors ts).pushLiteral_cases sz type text it' with
    ⟨st1, hpu', -, herrs'⟩ | ⟨st1, e, hpu', -⟩
  · rw [hpu] at hpu'
    cases hpu'
    rw [herrs] at herrs'
    have := (append_eq_nil_iff.1 herrs'.symm).2
    exact map_eq_nil_iff.1 this
  · rw [hpu] at hpu'
    cases hpu'

theorem addErrors_nil (st : LexState) : st.addErrors [] = st := by
  rw [addErrors, map_nil, append_nil]

variable (h : Positioned chars st stale)

include h

theorem Positioned.byteAt_zero (hne : st.it ≠ []) {n : Nat}
    (hchar : getUTF8FirstChar st.it = n) (hn : n < 0x80) : byteAt st.it 0 = n := by
  obtain ⟨s, hit, -⟩ := h.position
  cases s with
  | nil => exact absurd hit hne
  | cons c s =>
    rw [hit, getUTF8FirstChar_encode] at hchar
    rw [hit, encode_cons_ascii (by omega), byteAt_cons_zero, byte_of_lt (by omega), hchar]

theorem Positioned.whitespaceStep (hne : st.it ≠ [])
    (hnl : isNewline (getUTF8FirstChar st.it) = false)
    (hwsp : isWhitespace (getUTF8FirstChar st.it) = true) :
    Positioned chars { st with it := st.it.drop 1, column := st.column + 1 } stale := by
  obtain ⟨s, hit, hline, hat⟩ := h.position
  cases s with
  | nil => exact absurd hit hne
  | cons c s =>
    rw [hit, getUTF8FirstChar_encode] at hnl hwsp
    have hasc : c.toNat < 0x80 := by
      unfold isWhitespace at hwsp
      simp only [or_eq_true, decide_eq_true_iff] at hwsp
      omega
    have hpsd : ∀ d ∈ [c], ¬IsNewlineChar d := by
      intro d hd
      rw [mem_singleton.1 hd, IsNewlineChar, hnl]
      exact false_ne_true
    refine ⟨h.lexems, s, ?_, OnLine.advance [c] hline hpsd, ?_⟩
    · show st.it.drop 1 = encode s
      rw [hit, encode_cons_ascii hasc]
      rfl
    · intro hsta
      exact AtColumn.advance [c] (hat hsta) hpsd

theorem Positioned.newlineStep (hne : st.it ≠ [])
    (hnl : isNewline (getUTF8FirstChar st.it) = true) :
    Positioned chars { st with
      it := skipSecondNewline (getUTF8FirstChar st.it) (readNextUTF8Char st.it).2
      line := st.line + 1
      column := 0 } false := by
  obtain ⟨s, hit, hline, -⟩ := h.position
  cases s with
  | nil => exact absurd hit hne
  | cons c s =>
    rw [hit, getUTF8FirstChar_encode] at hnl
    have hat := hline.next hnl
    refine ⟨h.lexems, skipSecondNewlineChar c s, ?_, hat.onLine, fun _ => hat⟩
    show skipSecondNewline (getUTF8FirstChar st.it) (readNextUTF8Char st.it).2 = _
    rw [hit, getUTF8FirstChar_encode, readNextUTF8Char_encode, skipSecondNewline_encode]

theorem Positioned.lineCommentStep :
    Positioned chars { st with it := skipLineComment st.it } true := by
  obtain ⟨s, hit, hline, -⟩ := h.position
  obtain ⟨passed, r, rfl, hsk, hpsd⟩ := skipLineComment_encode s
  refine ⟨h.lexems, r, ?_, hline.advance passed hpsd, nofun⟩
  show skipLineComment st.it = encode r
  rw [hit, hsk]

theorem Positioned.commentStep {it : Text} {depth line column : Nat} (hne : st.it ≠ [])
    (hchar : getUTF8FirstChar st.it = '/'.toNat) (hnx : st.it[1]? = some (ascii '*'))
    (hsk : skipComment (st.it.drop 2) 1 st.line (st.column + 2) = .done it depth line column)
    (hwide : containsWideNewline (consumed st.it it) = false) :
    Positioned chars { st with it := it, line := line, column := column }
      (stale || containsNewline (consumed st.it it)) := by
  obtain ⟨s, hit, hline, hat⟩ := h.position
  have hopen : 1 < (encode s).length ∧ byteAt (encode s) 0 = '/'.toNat ∧
      byteAt (encode s) 1 = '*'.toNat := by
    have hz := h.byteAt_zero hne hchar (by decide)
    obtain ⟨hlen, -⟩ := List.getElem?_eq_some_iff.1 hnx
    refine ⟨hit ▸ hlen, hit ▸ hz, ?_⟩
    rw [byteAt, ← hit, getD_eq_getElem?_getD, hnx]
    rfl
  obtain ⟨s, rfl, hdr⟩ := encode_two_ascii hopen (by decide) (by decide)
  have hpos : CommentPositions ('/' :: '*' :: s) st.line st.column it line column :=
    CommentPositions.advance ['/', '*'] (skipComment_positions hsk s (by rw [hit, hdr]))
      commentBrackets_not_newline.1
  obtain ⟨passed, rest, hs, rfl, hlin, hcol⟩ := hpos
  rw [hit, hs, consumed_encode] at hwide ⊢
  rw [hs] at hline hat
  refine ⟨h.lexems, rest, rfl, ?_, ?_⟩
  · rw [← hs] at hline
    exact hlin chars hline (ascii_newline_of_containsWideNewline hwide)
  · intro hsta
    obtain ⟨hsta, hno⟩ := or_eq_false_iff.1 hsta
    have hpsd := no_newline_of_containsNewline hno
    obtain ⟨hline', hcol'⟩ := hcol hpsd
    show AtColumn chars line column rest
    rw [hline', hcol']
    exact (hat hsta).advance passed hpsd

/-- One turn keeps positions, if it hides no newline and, where the column is stale,
gives no lexem. -/
theorem Positioned.step (hsz : (encode chars).length < 2 ^ 32)
    (hne : st.it ≠ []) (hst : st.step (encode chars).length = .ok (.next st'))
    (herrs : st'.errors = [])
    (hkp : keepsLines (elementKind st.it st.it[1]?) (consumed st.it st'.it) = true)
    (hbla : stale = true → isBlank (elementKind st.it st.it[1]?) = true) :
    Positioned chars st'
      (staleAfter (elementKind st.it st.it[1]?) (consumed st.it st'.it) stale) := by
  have hkind := elementKind_spec st.it st.it[1]?
  have hsp := step_next_spec hst
  -- A lexem is found only where the column is not stale.
  have hfr : isBlank (elementKind st.it st.it[1]?) = false → stale = false := by
    intro hlx
    by_contra hsta
    rw [hbla (not_eq_false stale ▸ hsta)] at hlx
    cases hlx
  generalize elementKind st.it st.it[1]? = k at hsp hkind hkp hfr ⊢
  cases k with
  | lineComment =>
    rw [hsp]
    exact h.lineCommentStep
  | comment =>
    obtain ⟨it, depth, line, column, -, hsk, rfl⟩ := hsp
    by_cases hdep : depth = 0
    · rw [if_pos hdep] at hkp ⊢
      exact h.commentStep hne hkind.1 hkind.2 hsk (not_eq_true' _ ▸ hkp)
    · rw [if_neg hdep] at herrs
      simp [addErrors] at herrs
  | newline =>
    rw [hsp.2]
    exact h.newlineStep hne hkind
  | whitespace =>
    rw [hsp.2]
    exact h.whitespaceStep hne hkind.1 hkind.2
  | string =>
    obtain rfl := hfr rfl
    have htex := texts_nil_of_pushLiteral hsp herrs
    rw [htex, addErrors_nil] at hsp
    refine h.pushLiteral hsz ?_ hsp (not_eq_true' _ ▸ hkp)
    have hdr := boundary_drop_one h.encoded (h.byteAt_zero hne hkind (by decide)) (by decide)
    rcases parseStringLoop_behind htex with hnil | ⟨u, hu⟩
    · rw [hnil]
      exact boundary_nil _
    · exact hdr.trans (boundary_behind_ascii hdr.encoded hu (by decide))
  | charLiteral =>
    obtain rfl := hfr rfl
    obtain ⟨parsed, hpa, hpu⟩ := hsp
    have htex := texts_nil_of_pushLiteral hpu herrs
    rw [htex, addErrors_nil] at hpu
    refine h.pushLiteral hsz ?_ hpu (not_eq_true' _ ▸ hkp)
    obtain ⟨q, t, hit⟩ := exists_cons_of_ne_nil hne
    rw [hit] at hpa
    obtain ⟨u, hu⟩ := parseCharLiteral_behind hpa htex
    refine boundary_behind_ascii (t := q :: u) h.encoded ?_ (by decide : (ascii '\'').toNat < 0x80)
    rw [hit, hu, cons_append]
  | number =>
    obtain rfl := hfr rfl
    obtain ⟨type, end_, errors, hpa, hpu⟩ := hsp
    rw [texts_nil_of_pushLiteral hpu herrs, addErrors_nil] at hpu
    exact h.pushLiteral hsz (boundary_parseNumber h.encoded hpa) hpu (not_eq_true' _ ▸ hkp)
  | identifier =>
    obtain rfl := hfr rfl
    rw [it_of_pushLexem hsp] at hkp
    exact h.pushLexem hsz (boundary_identifierEnd h.encoded) (not_eq_true' _ ▸ hkp) hsp
  | macroIdentifier =>
    obtain rfl := hfr rfl
    obtain ⟨type, end_, hpa, hpu⟩ := hsp
    rw [it_of_pushLexem hpu] at hkp
    have hq : getUTF8FirstChar st.it = '?'.toNat := by
      unfold startsMacroIdentifier at hkind
      simp only [and_eq_true] at hkind
      exact of_decide_eq_true hkind.1.1.1
    have hbyte := h.byteAt_zero hne hq (by decide)
    exact h.pushLexem hsz (boundary_parseMacroIdentifier h.encoded hbyte hpa)
      (not_eq_true' _ ▸ hkp) hpu
  | fixed =>
    obtain rfl := hfr rfl
    rcases hsp with ⟨type, s, hfd, hpu⟩ | ⟨-, rfl⟩
    · rw [it_of_pushLexem hpu] at hkp
      exact h.pushLexem hsz (boundary_fixedLexem h.encoded hfd) (not_eq_true' _ ▸ hkp) hpu
    · simp [addErrors] at herrs

omit h

/-- Behind a byte order mark the position is on the first line, not at its start. -/
theorem positioned_start (chars : List Char) : Positioned chars (LexState.start (encode chars))
    (decide ([0xEF, 0xBB, 0xBF] <+: encode chars)) := by
  refine ⟨by simp [LexState.start], ?_⟩
  have hfst : AtColumn chars 1 0 chars := ⟨[], lineStart_first chars, by simp, rfl⟩
  by_cases hmark : [0xEF, 0xBB, 0xBF] <+: encode chars
  · obtain ⟨t, ht⟩ := hmark
    cases chars with
    | nil => cases ht
    | cons c s =>
      have hrd := readNextUTF8Char_encode c s
      rw [← ht] at hrd
      obtain ⟨hc, hs⟩ := Prod.mk.inj ((readNextUTF8Char_three t (by decide) (by decide)).symm.trans
        hrd)
      have hpsd : ∀ d ∈ [c], ¬IsNewlineChar d := by
        intro d hd
        rw [mem_singleton.1 hd, IsNewlineChar, ← hc]
        decide
      refine ⟨s, ?_, OnLine.advance [c] hfst.onLine hpsd, ?_⟩
      · rw [← hs]
        exact (if_pos ⟨t, ht⟩).trans (by rw [← ht]; rfl)
      · intro hsta
        exact absurd ⟨t, ht⟩ (of_decide_eq_false hsta)
  · exact ⟨chars, if_neg hmark, hfst.onLine, fun _ => hfst⟩

theorem Positioned.finish (h : Positioned chars st false) (hsz : (encode chars).length < 2 ^ 32) :
    ∀ lx ∈ (st.finish (encode chars).length).lexems, PositionFaithful (encode chars) lx := by
  intro lx hlx
  obtain ⟨s, hit, -, hat⟩ := h.position
  rcases mem_append.1 hlx with hlx | hlx
  · exact h.lexems lx hlx
  · rw [mem_singleton.1 hlx, hit]
    exact (hat rfl).position hsz

theorem loop_positioned {r : LexState} (hkpt : PositionsKept (encode chars)) (fuel : Nat)
    (hrch : ReachedStale (encode chars) st stale) (h : Positioned chars st stale)
    (hlp : st.loop (encode chars).length fuel = .ok r) (herrs : r.errors = []) :
    ∀ lx ∈ r.lexems, PositionFaithful (encode chars) lx := by
  induction fuel generalizing st stale with
  | zero =>
    rw [loop] at hlp
    split at hlp
    · rename_i hnil
      cases hlp
      rw [hkpt.stale_eq_false hrch hnil] at h
      exact h.finish hkpt.size_lt
    · cases hlp
  | succ fuel ih =>
    rw [loop] at hlp
    split at hlp
    · rename_i hnil
      cases hlp
      rw [hkpt.stale_eq_false hrch hnil] at h
      exact h.finish hkpt.size_lt
    rename_i hne
    split at hlp
    · cases hlp
    · rename_i st' hst
      cases hlp
      obtain ⟨added, hadd, hsto⟩ := step_addsErrors hst
      rw [show StepResult.state (.stop r) = r from rfl, herrs] at hadd
      exact absurd (append_eq_nil_iff.1 hadd.symm).2 (hsto r rfl)
    · rename_i st' hst
      have herrs' : st'.errors = [] := by
        have hpre := loop_errors hlp
        rw [herrs] at hpre
        exact prefix_nil.1 hpre
      have hkp := hkpt.keepsLines st stale st' hrch hne hst
      refine ih (hrch.step hne hst) (h.step hkpt.size_lt hne hst herrs' hkp ?_) hlp
      rintro rfl
      exact (hkpt.not_stale st hrch).2

end LexState

/-- In every encoded text without errors in which positions are kept, the location of
every lexem leads to its first byte. -/
theorem lexem_positions_faithful {text : Text} (fuel : Nat) {result : LexState}
    (hencoded : Encoded text) (hkept : PositionsKept text)
    (hrun : lexicalAnalysis fuel text = .ok result) (herrors : result.errors = []) :
    ∀ lexem ∈ result.lexems, PositionFaithful text lexem := by
  obtain ⟨chars, rfl⟩ := hencoded
  exact LexState.loop_positioned hkept fuel .start (LexState.positioned_start chars) hrun herrors

/-- An umlaut, a multiline comment over two lines and a line comment. -/
theorem lexem_positions_faithful_comments :
    ∃ result, lexicalAnalysis 9 (encode "Ü /*\r\n*/\n1u8// x\n".toList) = .ok result ∧
      result.lexems.length = 4 ∧ ∀ lexem ∈ result.lexems,
        PositionFaithful (encode "Ü /*\r\n*/\n1u8// x\n".toList) lexem := by
  refine ⟨⟨[], 4, 0, [⟨encode ['Ü'], ⟨1, 0⟩, .identifier, 0⟩, ⟨asciiText "1", ⟨3, 0⟩, .integerNumber, 10⟩,
    ⟨asciiText "u8", ⟨3, 1⟩, .literalSuffix, 11⟩, ⟨asciiText "EOF", ⟨4, 0⟩, .endOfFile, 18⟩], []⟩,
    by decide +kernel, rfl, ?_⟩
  exact lexem_positions_faithful 9 ⟨_, rfl⟩
    (positionsKept_of_check 9 (by decide +kernel) (by decide +kernel)) (by decide +kernel) rfl

/-- A newline inside a multiline comment makes the next column one too large. -/
theorem lexem_position_wrong_behind_comment : Encoded (asciiText "/*\n*/x") ∧
    ∃ result, lexicalAnalysis 2 (asciiText "/*\n*/x") = .ok result ∧ result.errors = [] ∧
      ¬∀ lexem ∈ result.lexems, PositionFaithful (asciiText "/*\n*/x") lexem := by
  refine ⟨⟨"/*\n*/x".toList, by decide +kernel⟩, ⟨[], 2, 4,
    [⟨asciiText "x", ⟨2, 3⟩, .identifier, 5⟩, ⟨asciiText "EOF", ⟨2, 4⟩, .endOfFile, 6⟩], []⟩, ?_⟩
  decide +kernel

/-- A byte order mark makes the columns of the first line one too small. -/
theorem lexem_position_wrong_behind_byte_order_mark :
    ∃ r, lexicalAnalysis 1 (encode ['\uFEFF', 'x']) = .ok r ∧ r.errors = [] ∧
      ¬∀ lx ∈ r.lexems, PositionFaithful (encode ['\uFEFF', 'x']) lx := by
  refine ⟨⟨[], 1, 1, [⟨asciiText "x", ⟨1, 0⟩, .identifier, 3⟩, ⟨asciiText "EOF", ⟨1, 1⟩, .endOfFile, 4⟩],
    []⟩, ?_⟩
  decide +kernel

end USprache.LexSynt
