import USprache.LexSynt.ExpressionReading
import USprache.LexSynt.LexedPieces

/-!
# Written expressions are parsed back

`WriteExpression`, then the lexical analysis and `ParseStandaloneExpression` give the
expression that was written, up to source locations.  This fails for two kinds of trees:
for a `non_sync` expression the writer leaves out the keyword, and all is written on one
line, which may be longer than the lexical analyzer allows.
-/

namespace USprache.LexSynt

open Filter List

def OtherParsers.withoutMacros (others : OtherParsers) : OtherParsers :=
  { others with fetchMacro := fun _ => none }

/-- The text that is written for the expression is analyzed and parsed without an error, to
the same tree up to source locations. -/
def RoundTrips (expression : Expression) : Prop :=
  ∀ others : OtherParsers, ∃ bound, ∀ fuel, bound ≤ fuel →
    ∃ st result, lexicalAnalysis fuel (writeExpression expression) = .ok st ∧ st.errors = [] ∧
      parseStandaloneExpression others.withoutMacros fuel st.lexems = .ok result ∧
      result.errorMessages = [] ∧ result.expression.eraseSrcLocs = expression.eraseSrcLocs

variable {expression : Expression} {eof : Lexem}

theorem parseStandaloneExpression_reads {others : OtherParsers} {fuel : Nat}
    (hrds : ReadsWritten (analyzer others fuel) expression)
    {lxs : List Lexem}
    (hsh : lxs.map Lexem.shape = shapesOf expression.pieces)
    (heof : eof.shape = ⟨.endOfFile, asciiText "EOF"⟩) :
    ∃ r, parseStandaloneExpression others fuel (lxs ++ [eof]) = .ok r ∧
      r.errorMessages = [] ∧ r.expression.eraseSrcLocs = expression.eraseSrcLocs := by
  have hty : eof.type = .endOfFile := congrArg Shape.type heof
  obtain ⟨copy, hpa, hcp⟩ := hrds (.start []) lxs eof [] hsh (by rw [hty]; decide)
  refine ⟨⟨copy, []⟩, ?_, rfl, hcp⟩
  unfold parseStandaloneExpression
  have hst : ParserState.start (lxs ++ [eof]) = (ParserState.start []).withLexems (lxs ++ [eof]) :=
    rfl
  rw [hst, hpa]
  change (if eof.type ≠ .endOfFile then _ else _) = _
  rw [if_neg (not_not.2 hty)]
  rfl

theorem avoids_of_isWritten {it : Lexem} (h : it.shape.IsWritten) : Avoids it := by
  rcases h with ⟨hty, hn | ⟨kw, hkw, ht⟩⟩ | ⟨-, hbra, hfx⟩
  · exact ⟨fun kw _ => hn.ne_keyword kw, fun hbra => by cases hty.symm.trans hbra⟩
  · have hkey : ∀ kw ∈ writtenKeywords,
        ∀ other ∈ [Keyword.non_sync_, .lambda_, .fn_, .generator_, .async_], kw.text ≠ other.text := by
      decide
    refine ⟨fun other ho => ?_, fun hbra => by cases hty.symm.trans hbra⟩
    exact (congrArg (· ≠ other.text) ht).mpr (hkey kw hkw other ho)
  · have hlxs : ∀ e ∈ allFixedLexems,
        ∀ other ∈ [Keyword.non_sync_, .lambda_, .fn_, .generator_, .async_], e.1 ≠ other.text := by
      decide +kernel
    exact ⟨hlxs _ hfx, hbra⟩

theorem avoids_eof (h : eof.shape = ⟨.endOfFile, asciiText "EOF"⟩) : Avoids eof := by
  have hty : eof.type = .endOfFile := congrArg Shape.type h
  have ht : eof.text = asciiText "EOF" := congrArg Shape.text h
  unfold Avoids
  rw [hty, ht]
  decide

theorem avoids_written (h : expression.OfOperators) {lxs : List Lexem}
    (hsh : lxs.map Lexem.shape = shapesOf expression.pieces)
    (heof : eof.shape = ⟨.endOfFile, asciiText "EOF"⟩) : ∀ it ∈ lxs ++ [eof], Avoids it := by
  refine forall_mem_append.2 ⟨fun it hit => avoids_of_isWritten ?_, ?_⟩
  · have hmem : it.shape ∈ shapesOf expression.pieces := hsh ▸ mem_map_of_mem hit
    obtain ⟨pc, hpc, hsha⟩ := mem_filterMap.1 hmem
    exact h.allWritten pc hpc it.shape hsha
  · exact forall_mem_singleton.2 (avoids_eof heof)

theorem lexicalAnalysis_written (h : expression.OfOperators)
    (hcol : (columnBehind 0 expression.pieces).isSome = true) {fuel : Nat}
    (hf : expression.pieces.length ≤ fuel) :
    ∃ st lxs eof, lexicalAnalysis fuel (writeExpression expression) = .ok st ∧ st.errors = [] ∧
      st.lexems = lxs ++ [eof] ∧ lxs.map Lexem.shape = shapesOf expression.pieces ∧
      eof.shape = ⟨.endOfFile, asciiText "EOF"⟩ := by
  obtain ⟨st, hlex, hpcs⟩ := lexicalAnalysis_writeExpression h hf
  obtain ⟨column, hsm⟩ := Option.isSome_iff_exists.1 hcol
  have hst : (LexState.start (writeExpression expression)).column = 0 := rfl
  rw [LexesPieces, hst, hsm] at hpcs
  obtain ⟨herrs, lxs, eof, hlxs, hsh, heof⟩ := hpcs
  exact ⟨st, lxs, eof, hlex, herrs, hlxs, hsh, heof⟩

theorem roundTrips_of_noNonSync (h : expression.OfOperators) (hsy : expression.hasNonSync = false)
    (hcol : (columnBehind 0 expression.pieces).isSome = true) : RoundTrips expression := by
  intro others
  have hcore : CoreReads others.withoutMacros expression := h.coreReads (fun _ => rfl) hsy
  obtain ⟨bound, hbd⟩ := eventually_atTop.1 hcore.expression
  refine ⟨max bound expression.pieces.length, fun fuel hf => ?_⟩
  obtain ⟨st, lexems, eof, hlex, herrs, hlxs, hsh, heof⟩ :=
    lexicalAnalysis_written h hcol (le_of_max_le_right hf)
  obtain ⟨r, hpa, hmes, hcp⟩ :=
    parseStandaloneExpression_reads (hbd fuel (le_of_max_le_left hf)) hsh heof
  exact ⟨st, r, hlex, herrs, hlxs ▸ hpa, hmes, hcp⟩

def unusedParsers : OtherParsers where
  parseLambda := Parser.outOfFuel
  parseFunctionType := Parser.outOfFuel
  parseCoroutineType := Parser.outOfFuel
  parseStructNamedInitializer := Parser.outOfFuel
  fetchMacro _ := none

theorem noNonSync_of_roundTrips (h : expression.OfOperators) (hrou : RoundTrips expression) :
    expression.hasNonSync = false ∧ (columnBehind 0 expression.pieces).isSome = true := by
  obtain ⟨bound, hbd⟩ := hrou unusedParsers
  obtain ⟨st, result, hlex, herrs, hpa, -, hcp⟩ :=
    hbd (max bound expression.pieces.length) (le_max_left _ _)
  have hf : expression.pieces.length ≤ max bound expression.pieces.length := le_max_right _ _
  have hcol : (columnBehind 0 expression.pieces).isSome = true := by
    obtain ⟨st', hlex', hpcs⟩ := lexicalAnalysis_writeExpression h hf
    obtain rfl : st = st' := Except.ok.inj (hlex.symm.trans hlex')
    have hst : (LexState.start (writeExpression expression)).column = 0 := rfl
    rw [LexesPieces, hst] at hpcs
    cases hbh : columnBehind 0 expression.pieces with
    | none => rw [hbh] at hpcs; exact absurd herrs hpcs
    | some column => rfl
  refine ⟨?_, hcol⟩
  obtain ⟨st', lexems, eof, hlex', -, hlxs, hsh, heof⟩ := lexicalAnalysis_written h hcol hf
  obtain rfl : st = st' := Except.ok.inj (hlex.symm.trans hlex')
  rw [hlxs] at hpa
  have hsy := parseStandaloneExpression_noNonSync (fun _ => rfl) (avoids_written h hsh heof) hpa
  rw [← Expression.hasNonSync_eraseSrcLocs, hcp, Expression.hasNonSync_eraseSrcLocs] at hsy
  exact hsy

/-- The written expression is parsed back exactly if the tree has no `non_sync` expression
and the written line is not too long. -/
theorem roundTrips_iff {expression : Expression} (h : expression.OfOperators) :
    RoundTrips expression ↔
      expression.hasNonSync = false ∧ (columnBehind 0 expression.pieces).isSome = true :=
  ⟨noNonSync_of_roundTrips h, fun hexpression => roundTrips_of_noNonSync h hexpression.1 hexpression.2⟩

theorem isName_a : IsName (asciiText "a") := by
  refine ⟨isIdentifier_asciiText (by decide), ?_⟩
  rintro ⟨kw, h⟩
  revert h
  cases kw <;> decide

/-- `( ( a - ( -a ) )[ a ] )` -/
theorem roundTrips_subscript : RoundTrips (.subscriptOperator erasedSrcLoc
    (.binaryOperator erasedSrcLoc .sub (.typeName (.complexName (.nameLookup erasedSrcLoc (asciiText "a"))))
      (.unaryMinus erasedSrcLoc (.typeName (.complexName (.nameLookup erasedSrcLoc (asciiText "a"))))))
    (.typeName (.complexName (.nameLookup erasedSrcLoc (asciiText "a"))))) := by
  have ha := fun srcLoc => Expression.OfOperators.name (@ComplexName.OfNames.nameLookup srcLoc _ isName_a)
  exact (roundTrips_iff (.subscriptOperator (.binaryOperator (ha _) (.unaryMinus (ha _))) (ha _))).2
    (by decide +kernel)

/-- `</ a />` is written for `non_sync</ a />`. -/
theorem not_roundTrips_nonSync : ¬RoundTrips (.nonSyncExpression erasedSrcLoc
    (.complexName (.nameLookup erasedSrcLoc (asciiText "a")))) := by
  intro hround
  have h := noNonSync_of_roundTrips (.nonSyncExpression (.nameLookup isName_a)) hround
  exact absurd h.1 (by decide)

end USprache.LexSynt

/-!
# Written literals

The lexical analyzer reads a written string literal back exactly if it has no character `0x7F`,
which is written as it is but not allowed inside a literal, and fits on a line.
-/

namespace USprache.LexSynt

open List

variable {b : UInt8} {s text rest : Text}

theorem hexEscape_decoded : ∀ n : Fin 32, hexCode ((hexEscape n.1).drop 2) 0 0 = .ok n.1 := by
  decide +kernel

theorem parseStringLoop_raw (hq : b ≠ ascii '"') (hctl : ¬(b < 0x20 ∨ b = 0x7F))
    (hsl : b ≠ ascii '\\') :
    parseStringLoop text (b :: rest) = parseStringLoop (text ++ [b]) rest := by
  rw [parseStringLoop.eq_def]
  dsimp only
  rw [if_neg hq, if_neg hctl, if_neg hsl]

theorem parseStringLoop_unicode {h1 h2 h3 h4 : UInt8} {code : Nat}
    (hcode : hexCode [h1, h2, h3, h4] 0 0 = .ok code) :
    parseStringLoop text (ascii '\\' :: ascii 'u' :: h1 :: h2 :: h3 :: h4 :: rest) =
      parseStringLoop (pushCharToUTF8String code text) rest := by
  rw [parseStringLoop.eq_def]
  dsimp only
  rw [if_neg (by decide), if_neg (by decide), if_pos rfl,
    show simpleEscape (ascii 'u') = none from rfl]
  rw [if_pos rfl, hcode]

theorem parseStringLoop_escapeByte (hb : b ≠ 0x7F) :
    parseStringLoop text (escapeByte b ++ rest) = parseStringLoop (text ++ [b]) rest := by
  unfold escapeByte
  split
  · rename_i h
    subst h
    rfl
  split
  · rename_i h
    subst h
    exact parseStringLoop_raw (by decide) (by decide) (by decide)
  iterate 7
    split
    · rename_i h
      subst h
      rfl
  split
  · rename_i h
    have hcode := hexEscape_decoded ⟨b.toNat, h⟩
    have hpu := pushCharToUTF8String_eq (show b.toNat ≤ 0x10FFFF by have := b.toNat_lt; omega) text
    rw [codePointBytes, if_pos (show b.toNat ≤ 0x7F from le_of_lt (lt_trans h (by decide))),
      UInt8.ofNat_toNat] at hpu
    exact (parseStringLoop_unicode hcode).trans (congrArg (parseStringLoop · rest) hpu)
  · rename_i hq _ hsl _ _ _ _ _ _ hctl
    exact parseStringLoop_raw hq (not_or.2 ⟨hctl, hb⟩) hsl

theorem parseStringLoop_written (hs : 0x7F ∉ s) :
    parseStringLoop text (s.flatMap escapeByte ++ ascii '"' :: rest) = ⟨text ++ s, rest, []⟩ := by
  induction s generalizing text with
  | nil =>
    rw [append_nil, parseStringLoop.eq_def]
    exact if_pos rfl
  | cons b s ih =>
    obtain ⟨hb, hs⟩ := not_or.1 (mt mem_cons.2 hs)
    rw [flatMap_cons, append_assoc, parseStringLoop_escapeByte (Ne.symm hb), ih hs, append_assoc]
    rfl

theorem parseStringLoop_delete (hs : 0x7F ∈ s) :
    (parseStringLoop text (s.flatMap escapeByte ++ rest)).errors ≠ [] := by
  induction s generalizing text with
  | nil => cases hs
  | cons b s ih =>
    rw [flatMap_cons, append_assoc]
    by_cases hb : b = 0x7F
    · subst hb
      show (parseStringLoop text (0x7F :: _)).errors ≠ []
      rw [parseStringLoop.eq_def]
      exact cons_ne_nil _ _
    · rw [parseStringLoop_escapeByte hb]
      exact ih ((mem_cons.1 hs).resolve_left (Ne.symm hb))

theorem parseStringImpl_writeStringEscaped (s rest : Text) :
    parseStringImpl (writeStringEscaped s ++ rest) =
      .ok (parseStringLoop [] (s.flatMap escapeByte ++ ascii '"' :: rest)) := by
  rw [writeStringEscaped, append_assoc]
  rfl

/-- The code points that are written for a character of a string. -/
def writtenWidth (c : Char) : Nat :=
  if c.toNat ∈ [0x22, 0x5C, 0x08, 0x0C, 0x0A, 0x0D, 0x09, 0x00] then 2
  else if c.toNat < 0x20 then 6
  else 1

def literalWidth (chars : List Char) : Nat := (chars.map writtenWidth).sum + 2

theorem escapeByte_ascii : ∀ n : Fin 128,
    (escapeByte (UInt8.ofNat n)).length = writtenWidth (Char.ofNat n) ∧
      ∀ b ∈ escapeByte (UInt8.ofNat n), b.toNat < 0x80 := by
  decide +kernel

theorem escapeByte_of_le : ∀ n : Fin 256, 0x80 ≤ n.1 → escapeByte (UInt8.ofNat n) = [UInt8.ofNat n] := by
  decide +kernel

theorem flatMap_escapeByte_of_le (h : ∀ b ∈ s, 0x80 ≤ b.toNat) : s.flatMap escapeByte = s := by
  induction s with
  | nil => rfl
  | cons b s ih =>
    have hb := escapeByte_of_le ⟨b.toNat, b.toNat_lt⟩ (h b mem_cons_self)
    rw [UInt8.ofNat_toNat] at hb
    rw [flatMap_cons, hb, ih fun b hb => h b (mem_cons_of_mem _ hb)]
    rfl

theorem utf8EncodeChar_cases (c : Char) :
    c.toNat < 0x80 ∧ String.utf8EncodeChar c = [UInt8.ofNat c.toNat] ∨
      0x80 ≤ c.toNat ∧ ∀ b ∈ String.utf8EncodeChar c, 0x80 ≤ b.toNat := by
  by_cases hc : c.toNat < 0x80
  · exact .inl ⟨hc, by simpa [encode_cons] using encode_cons_ascii hc []⟩
  refine .inr ⟨Nat.le_of_not_lt hc, ?_⟩
  rcases utf8EncodeChar_bytes c with ⟨b, hb, hlow⟩ | ⟨b, tail, hb, hhigh, htail⟩
  · have hread := readNextUTF8Char_encode c []
    rw [encode_cons, hb] at hread
    rw [singleton_append, readNextUTF8Char_ascii hlow] at hread
    exact absurd ((Prod.mk.inj hread).1 ▸ hlow) hc
  · rw [hb]
    exact forall_mem_cons.2 ⟨le_trans (by decide) hhigh, fun b hb => (htail b hb).1⟩

theorem delete_mem_encode (chars : List Char) : 0x7F ∈ encode chars ↔ '\x7f' ∈ chars := by
  rw [encode, mem_flatMap]
  constructor
  · rintro ⟨c, hc, hmem⟩
    rcases utf8EncodeChar_cases c with ⟨hlow, heq⟩ | ⟨-, hhigh⟩
    · rw [heq, mem_singleton] at hmem
      have hnat : c.toNat = 0x7F := by
        have := congrArg UInt8.toNat hmem
        rw [UInt8.toNat_ofNat_of_lt' (lt_trans hlow (by decide))] at this
        exact this.symm
      rwa [show '\x7f' = c from Char.toNat_inj.1 hnat.symm]
    · exact absurd (hhigh _ hmem) (by decide)
  · exact fun h => ⟨_, h, by decide⟩

theorem flatMap_escapeByte_encode (chars : List Char) :
    ∃ cs, (encode chars).flatMap escapeByte = encode cs ∧ cs.length = (chars.map writtenWidth).sum := by
  induction chars with
  | nil => exact ⟨[], rfl, rfl⟩
  | cons c chars ih =>
    obtain ⟨cs, hcs, hlen⟩ := ih
    rw [encode_cons, flatMap_append, hcs, map_cons, sum_cons, ← hlen]
    rcases utf8EncodeChar_cases c with ⟨hlow, heq⟩ | ⟨hle, hhigh⟩
    · obtain ⟨hwidth, hascii⟩ := escapeByte_ascii ⟨c.toNat, hlow⟩
      obtain ⟨es, hes, hesLen⟩ := exists_encode_of_ascii hascii
      refine ⟨es ++ cs, ?_, ?_⟩
      · rw [heq, flatMap_singleton, encode_append, ← hes]
      · rw [length_append, hesLen, hwidth, Char.ofNat_toNat]
    · refine ⟨c :: cs, ?_, ?_⟩
      · rw [flatMap_escapeByte_of_le hhigh, encode_cons]
      · have hwidth : writtenWidth c = 1 := by
          unfold writtenWidth
          rw [if_neg, if_neg (by omega)]
          rintro hmem
          simp only [mem_cons, not_mem_nil, or_false] at hmem
          omega
        rw [hwidth, length_cons, add_comm]

theorem countCodePoints_writeStringEscaped (chars : List Char) :
    countCodePoints (writeStringEscaped (encode chars)) = literalWidth chars := by
  obtain ⟨cs, hcs, hlen⟩ := flatMap_escapeByte_encode chars
  have heq : writeStringEscaped (encode chars) = encode ('"' :: (cs ++ ['"'])) := by
    rw [writeStringEscaped, hcs, ← cons_append, encode_append]
    rfl
  rw [heq, countCodePoints_encode, length_cons, length_append, hlen, literalWidth]
  rfl

theorem start_ne_nil : (LexState.start (writeStringEscaped s)).it ≠ [] := cons_ne_nil _ _

/-- The first turn for a text that is a written literal. -/
theorem step_writeStringEscaped (size : Nat) (s : Text) :
    (LexState.start (writeStringEscaped s)).step size =
      let parsed := parseStringLoop [] (s.flatMap escapeByte ++ [ascii '"'])
      .ok (((LexState.start (writeStringEscaped s)).addErrors parsed.errors).pushLiteral size .string
        parsed.text parsed.it) := by
  have hkind : elementKind (writeStringEscaped s) (writeStringEscaped s)[1]? = .string := rfl
  have hit : (LexState.start (writeStringEscaped s)).it = writeStringEscaped s := rfl
  have hparse := parseStringImpl_writeStringEscaped s []
  rw [append_nil] at hparse
  rw [LexState.step_eq, hit, hkind]
  simp only [hparse]
  rfl

/-- The string is read back as one lexem. -/
def ReadsBack (fuel : Nat) (chars : List Char) : Prop :=
  ∃ st, lexicalAnalysis fuel (writeStringEscaped (encode chars)) = .ok st ∧ st.errors = [] ∧
    st.lexems.map Lexem.shape = [⟨.string, encode chars⟩, ⟨.endOfFile, asciiText "EOF"⟩]

variable {chars : List Char} {fuel : Nat}

theorem not_readsBack (hdel : 0x7F ∈ encode chars) : ¬ReadsBack (fuel + 1) chars := by
  rw [ReadsBack, lexicalAnalysis, LexState.loop, if_neg start_ne_nil, step_writeStringEscaped]
  have hparse : (parseStringLoop [] ((encode chars).flatMap escapeByte ++ [ascii '"'])).errors ≠ [] :=
    parseStringLoop_delete hdel
  generalize (writeStringEscaped (encode chars)).length = size
  generalize LexState.start (writeStringEscaped (encode chars)) = start
  generalize parseStringLoop [] ((encode chars).flatMap escapeByte ++ [ascii '"']) = parsed at hparse
  have hadd : (start.addErrors parsed.errors).errors ≠ [] :=
    append_ne_nil_of_right_ne_nil _ fun h => hparse (map_eq_nil_iff.1 h)
  rintro ⟨st, hst, herrs, -⟩
  rcases (start.addErrors parsed.errors).pushLiteral_cases size .string parsed.text parsed.it with
    ⟨st', hpush, -, herrs'⟩ | ⟨st', e, hpush, herrs', -⟩
  · simp only [hpush] at hst
    exact hadd (herrs' ▸ prefix_nil.1 (herrs ▸ LexState.loop_errors hst))
  · simp only [hpush] at hst
    cases hst
    exact absurd herrs (herrs' ▸ append_ne_nil_of_left_ne_nil hadd _)

theorem readsBack_of_no_delete (hdel : 0x7F ∉ encode chars) :
    ReadsBack (fuel + 1) chars ↔ toUInt32 (literalWidth chars) ≤ maxColumn := by
  rw [ReadsBack, lexicalAnalysis, LexState.loop, if_neg start_ne_nil, step_writeStringEscaped,
    parseStringLoop_written hdel]
  have hcount : toUInt32 (0 + countCodePoints (consumed (writeStringEscaped (encode chars)) [])) =
      toUInt32 (literalWidth chars) := by
    rw [zero_add, ← countCodePoints_writeStringEscaped, consumed, length_nil, Nat.sub_zero,
      take_length]
  have hit : (LexState.start (writeStringEscaped (encode chars))).it =
    writeStringEscaped (encode chars) := rfl
  have hcol : (LexState.start (writeStringEscaped (encode chars))).column = 0 := rfl
  simp only [LexState.pushLiteral, LexState.pushLexem, LexState.addErrors, hit, hcol, hcount]
  by_cases hlim : toUInt32 (literalWidth chars) > maxColumn
  · simp only [if_pos hlim]
    refine ⟨?_, fun h => absurd h (Nat.not_le.2 hlim)⟩
    rintro ⟨st, hst, herrs, -⟩
    cases hst
    exact absurd herrs (append_ne_nil_of_right_ne_nil _ (cons_ne_nil _ _))
  · have hend : isIdentifierStartChar (getUTF8FirstChar []) = false := by decide
    simp only [if_neg hlim, hend, Bool.false_eq_true, if_false]
    refine ⟨fun _ => Nat.le_of_not_lt hlim, fun _ => ?_⟩
    cases fuel with
    | zero | succ fuel => exact ⟨_, rfl, rfl, rfl⟩

/-- One turn of the main loop is enough. -/
theorem readsBack_iff (fuel : Nat) (chars : List Char) :
    ReadsBack (fuel + 1) chars ↔ '\x7f' ∉ chars ∧ toUInt32 (literalWidth chars) ≤ maxColumn := by
  rw [← delete_mem_encode]
  by_cases hdel : 0x7F ∈ encode chars
  · exact iff_of_false (not_readsBack hdel) fun h => h.1 hdel
  · rw [readsBack_of_no_delete hdel]
    exact (and_iff_right hdel).symm

/-- The character `0x7F` is written as it is. -/
theorem not_readsBack_delete : ¬ReadsBack 1 ['\x7f'] :=
  fun h => ((readsBack_iff 0 _).1 h).1 mem_cons_self

end USprache.LexSynt
