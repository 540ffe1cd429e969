import USprache.LexSynt.LexerProgress

/-!
# Memory discipline of the lexical analyzer

When does the analysis of an arbitrary byte string end, without a fault, and with
an error for everything that the end of the text cuts off?  The analyzer falls
short in five cases, by what the main loop finds at a position:

* a char literal that ends behind its backslash: the position moves past the end;
* a digit of more than one byte: `ParseNumber` does not move, and the loop never ends;
* a string literal without its closing quote, or that ends behind a backslash;
* a character of several bytes that is cut off, alone or at the end of a line comment.
-/

namespace USprache.LexSynt

open List Option

/-! ## Reading characters

The model reads characters with `readNextUTF8Char`, for which no read can go wrong.
That nothing is hidden by it is shown by reading the same with every access to the
text checked. -/

variable (s : Text)

/-- `ReadNextUTF8Char`, with the end of the text `n` bytes ahead. -/
def readNextUTF8CharChecked (n : Nat) : Except Fault (Nat × Text) := do
  let c ← peek s 0
  if c.toNat < 0b10000000 then
    return (c.toNat, ← advance s 1)
  else if c.toNat < 0b11100000 then
    if n < 2 then return (0, ← advance s n)
    else
      let b0 ← peek s 0
      let b1 ← peek s 1
      return (((b0.toNat &&& bitMask 5) <<< 6) ||| (b1.toNat &&& bitMask 6), ← advance s 2)
  else if c.toNat < 0b11110000 then
    if n < 3 then return (0, ← advance s n)
    else
      let b0 ← peek s 0
      let b1 ← peek s 1
      let b2 ← peek s 2
      return (((b0.toNat &&& bitMask 4) <<< 12) ||| ((b1.toNat &&& bitMask 6) <<< 6) |||
        (b2.toNat &&& bitMask 6), ← advance s 3)
  else if c.toNat < 0b11111000 then
    if n < 4 then return (0, ← advance s n)
    else
      let b0 ← peek s 0
      let b1 ← peek s 1
      let b2 ← peek s 2
      let b3 ← peek s 3
      return (((b0.toNat &&& bitMask 3) <<< 18) ||| ((b1.toNat &&& bitMask 6) <<< 12) |||
        ((b2.toNat &&& bitMask 6) <<< 6) ||| (b3.toNat &&& bitMask 6), ← advance s 4)
  else return (0, ← advance s 1)

theorem readNextUTF8CharChecked_eq {s : Text} {n : Nat} (hne : s ≠ []) (hn : n ≤ s.length) :
    readNextUTF8CharChecked s n = .ok (readNextUTF8CharUntil s n) := by
  have hpos := length_pos_iff.2 hne
  unfold readNextUTF8CharChecked readNextUTF8CharUntil
  simp only [peek_of_le (Nat.zero_le _), advance_of_le hpos, advance_of_le hn, bind, Except.bind,
    pure, Except.pure, ← byteAt.eq_def]
  by_cases h1 : byteAt s 0 < 0b10000000
  · rw [if_pos h1, if_pos h1]
  rw [if_neg h1, if_neg h1]
  by_cases h2 : byteAt s 0 < 0b11100000
  · rw [if_pos h2, if_pos h2]
    by_cases hsh : n < 2
    · rw [if_pos hsh, if_pos hsh]
    · rw [if_neg hsh, if_neg hsh, peek_of_le (by omega), advance_of_le (by omega)]
      rfl
  rw [if_neg h2, if_neg h2]
  by_cases h3 : byteAt s 0 < 0b11110000
  · rw [if_pos h3, if_pos h3]
    by_cases hsh : n < 3
    · rw [if_pos hsh, if_pos hsh]
    · rw [if_neg hsh, if_neg hsh, peek_of_le (by omega), peek_of_le (by omega),
        advance_of_le (by omega)]
      rfl
  rw [if_neg h3, if_neg h3]
  by_cases h4 : byteAt s 0 < 0b11111000
  · rw [if_pos h4, if_pos h4]
    by_cases hsh : n < 4
    · rw [if_pos hsh, if_pos hsh]
    · rw [if_neg hsh, if_neg hsh, peek_of_le (by omega), peek_of_le (by omega),
        peek_of_le (by omega), advance_of_le (by omega)]
      rfl
  rw [if_neg h4, if_neg h4]

/-- The number of bytes a character has by its first byte. -/
def charSize (b : UInt8) : Nat :=
  if b.toNat < 0b10000000 then 1
  else if b.toNat < 0b11100000 then 2
  else if b.toNat < 0b11110000 then 3
  else if b.toNat < 0b11111000 then 4
  else 1

def charCutOff : Bool :=
  match s with
  | [] => false
  | b :: rest => decide (rest.length + 1 < charSize b)

/-- The text ends inside the last character of a line comment. -/
def lineCommentCutOff (s : Text) : Bool :=
  if _h : s ≠ [] ∧ isNewline (readNextUTF8Char s).1 = false then
    charCutOff s || lineCommentCutOff (readNextUTF8Char s).2
  else false
termination_by s.length
decreasing_by exact readNextUTF8Char_length_lt _h.1

/-- The text ends before all comments that are open are closed. -/
def commentCutOff (s : Text) (depth : Nat) : Bool :=
  if h : s = [] then true
  else if 1 < s.length ∧ byteAt s 0 = '*'.toNat ∧ byteAt s 1 = '/'.toNat then
    if depth - 1 = 0 then false else commentCutOff (s.drop 2) (depth - 1)
  else if 1 < s.length ∧ byteAt s 0 = '/'.toNat ∧ byteAt s 1 = '*'.toNat then
    commentCutOff (s.drop 2) (depth + 1)
  else if isNewline (spracheChar (s.getD 0 0)) then
    commentCutOff (skipSecondNewlineInComment (spracheChar (s.getD 0 0)) (s.drop 1)) depth
  else commentCutOff (readNextUTF8Char s).2 depth
termination_by s.length
decreasing_by
  all_goals have hpos := length_pos_iff.2 h
  · rw [length_drop]; omega
  · rw [length_drop]; omega
  · refine Nat.lt_of_le_of_lt (skipSecondNewlineInComment_length_le _ _) ?_
    rw [length_drop]
    omega
  · exact readNextUTF8Char_length_lt h

/-- The text ends before the closing quote of a string literal, with the text from
behind the opening quote on.  `inHex` says whether an end among the digits of `\u`
counts. -/
def stringEnds (inHex : Bool) : Text → Bool
  | [] => true
  | b :: rest =>
    if b = ascii '"' ∨ b < 0x20 ∨ b = 0x7F then false
    else if b = ascii '\\' then
      match rest with
      | [] => true
      | e :: rest' =>
        if (simpleEscape e).isSome then stringEnds inHex rest'
        else if e = ascii 'u' then
          match rest' with
          | h₁ :: h₂ :: h₃ :: h₄ :: rest'' =>
            [h₁, h₂, h₃, h₄].all (isDigit 16) && stringEnds inHex rest''
          | _ => inHex
        else false
    else stringEnds inHex rest

def stringCutOff : Bool := stringEnds true s

/-- The text ends before the closing quote of a char literal, with the text from
behind the opening quote on. -/
def charLiteralCutOff : Text → Bool
  | [] => true
  | b :: rest =>
    if b = ascii '\'' then false
    else if b = ascii '\\' then
      match rest with
      | [] => true
      | e :: rest' =>
        if (simpleEscape e).isSome then rest'.isEmpty
        else if e = ascii 'u' then
          decide (rest'.length < 4) || ((rest'.take 4).all (isDigit 16) && (rest'.drop 4).isEmpty)
        else false
    else (readNextUTF8Char (b :: rest)).2.isEmpty

/-- The text ends behind the letter that sets the base of a number.  Everywhere else
a number may end. -/
def numberCutOff : Bool := (prefixedBase s s[1]?).isSome && decide (s.length = 2)

/-- The text ends inside the element that starts at the position. -/
def cutOff : Bool :=
  match elementKind s s[1]? with
  | .lineComment => lineCommentCutOff s
  | .comment => commentCutOff (s.drop 2) 1
  | .string => stringCutOff (s.drop 1)
  | .charLiteral => charLiteralCutOff (s.drop 1)
  | .number => numberCutOff s
  | _ => charCutOff s

/-- The states at the beginning of a turn of the main loop. -/
inductive Reached (text : Text) : LexState → Prop
  | start : Reached text (LexState.start text)
  | step {st st' : LexState} : Reached text st → st.it ≠ [] →
      st.step text.length = .ok (.next st') → Reached text st'

/-- A multiline comment that is left because of a limit is not read to its end. -/
def StopsInComment (size : Nat) (st : LexState) : Prop :=
  elementKind st.it st.it[1]? = .comment ∧ ∃ st', st.step size = .ok (.stop st')

def Reports (size : Nat) (st : LexState) : Prop :=
  ∃ result added e, st.step size = .ok result ∧ result.state.errors = st.errors ++ added ∧
    e ∈ added ∧ e.text ≠ columnLimitMessage

/-- The analysis ends without a fault and every element that is cut off by the end
of the text is reported. -/
def Disciplined (text : Text) : Prop := (∃ fuel result, lexicalAnalysis fuel text = .ok result) ∧
  ∀ st, Reached text st → st.it ≠ [] → cutOff st.it = true →
    StopsInComment text.length st ∨ Reports text.length st

/-- `ParseStringImpl` reports only the digits it misses. -/
def stringEndsSilently : Bool := stringEnds false s

def elementOk : Bool := !charCutOff s &&
  match elementKind s s[1]? with
  | .lineComment => !lineCommentCutOff s
  | .string => !stringEndsSilently (s.drop 1)
  | .charLiteral => s.drop 1 != [ascii '\\']
  | .number => isDigit 10 (s.getD 0 0)
  | _ => true

/-- The element is none of the two kinds that the main loop does not get over. -/
def elementPassed : Bool :=
  match elementKind s s[1]? with
  | .charLiteral => s.drop 1 != [ascii '\\']
  | .number => isDigit 10 (s.getD 0 0)
  | _ => true

theorem elementPassed_of_elementOk {s : Text} (h : elementOk s = true) :
    elementPassed s = true := by
  have hkind := (Bool.and_eq_true_iff.1 h).2
  unfold elementPassed
  cases hk : elementKind s s[1]? with
  | charLiteral | number => rw [hk] at hkind; exact hkind
  | _ => rfl

/-- A character that is cut off is read as zero, and the position moves to the
end. -/
theorem readNextUTF8Char_of_cutOff {s : Text} (h : charCutOff s = true) :
    readNextUTF8Char s = (0, []) := by
  cases s with
  | nil => cases h
  | cons b r =>
    have hlt : r.length + 1 < charSize b := of_decide_eq_true h
    have hdr : (b :: r).drop (b :: r).length = [] := drop_length
    unfold charSize at hlt
    unfold readNextUTF8Char readNextUTF8CharUntil
    rw [hdr, byteAt_cons_zero, length_cons]
    split_ifs at hlt with h1 h2 h3 h4
    · omega
    · simp only [if_neg h1, if_pos h2, if_pos hlt]
    · simp only [if_neg h1, if_neg h2, if_pos h3, if_pos hlt]
    · simp only [if_neg h1, if_neg h2, if_neg h3, if_pos h4, if_pos hlt]
    · omega

theorem elementKind_of_charCutOff {s : Text} (h : charCutOff s = true) (next : Option UInt8) :
    elementKind s next = .whitespace := by
  have hc : getUTF8FirstChar s = 0 := congrArg Prod.fst (readNextUTF8Char_of_cutOff h)
  unfold elementKind
  rw [hc]
  rfl

theorem hexCode_ok_iff (ds : List UInt8) (i code : Nat) :
    (∃ code', hexCode ds i code = .ok code') ↔ ds.all (isDigit 16) = true := by
  induction ds generalizing i code with
  | nil => simp [hexCode]
  | cons b ds ih =>
    rw [hexCode, all_cons, isDigit]
    cases tryParseDigit 16 b with
    | none => simp
    | some digit => simpa using ih (i + 1) _

theorem parseStringLoop_errors (tx t : Text) :
    (stringEnds false t = true → stringEnds true t = true ∧ (parseStringLoop tx t).errors = []) ∧
    (stringEnds false t = false → stringEnds true t = true →
      (parseStringLoop tx t).errors = ["expected 4 hex digits"]) := by
  fun_induction parseStringLoop tx t with
  | case1 => simp [stringEnds]
  | case2 tx r => simp [stringEnds.eq_def _ (_ :: _)]
  | case3 tx b r hq hctl => simp [stringEnds.eq_def _ (_ :: _), hctl]
  | case4 tx =>
    have hends : ∀ inHex, stringEnds inHex [ascii '\\'] = true := by decide
    simp [hends]
  | case5 tx e r b hesc hq hctl ih =>
    rw [stringEnds.eq_def, stringEnds.eq_def]
    simp only [hesc]
    exact ih
  | case6 tx h₁ h₂ h₃ h₄ r i hcode hq hctl hu =>
    have hds : [h₁, h₂, h₃, h₄].all (isDigit 16) = false := by
      rw [← Bool.not_eq_true, ← hexCode_ok_iff _ 0 0, hcode]
      simp
    rw [stringEnds.eq_def, stringEnds.eq_def]
    simp [hu, hds]
  | case7 tx h₁ h₂ h₃ h₄ r code hcode hq hctl hu ih =>
    have hds : [h₁, h₂, h₃, h₄].all (isDigit 16) = true := (hexCode_ok_iff _ 0 0).1 ⟨code, hcode⟩
    rw [stringEnds.eq_def, stringEnds.eq_def]
    simp only [hds]
    exact ih
  | case8 tx short hsh hq hctl hu =>
    rw [stringEnds.eq_def]
    simp [hu]
  | case9 tx e r hesc hu hq hctl =>
    rw [stringEnds.eq_def, stringEnds.eq_def]
    simp [hu, hesc]
  | case10 tx b r hq hctl hsl ih =>
    rw [stringEnds.eq_def, stringEnds.eq_def]
    simp only [hq, hctl, hsl]
    exact ih

theorem charLiteralEscape_errors {e : UInt8} {w : Text}
    (h : charLiteralCutOff (ascii '\\' :: e :: w) = true) :
    ∃ parsed, charLiteralEscape e w = .ok parsed ∧ ∃ t ∈ parsed.errors, t ≠ columnLimitMessage := by
  have hne : ascii '\\' ≠ ascii '\'' := by decide
  rw [charLiteralCutOff, if_neg hne, if_pos rfl] at h
  unfold charLiteralEscape
  cases hesc : simpleEscape e with
  | some b =>
    simp only [hesc, isSome_some, if_true, List.isEmpty_iff] at h
    subst h
    exact ⟨_, rfl, _, mem_singleton_self _, by decide +kernel⟩
  | none =>
    simp only [hesc, isSome_none, Bool.false_eq_true, if_false] at h ⊢
    by_cases hu : e = ascii 'u'
    · rw [if_pos hu] at h
      simp only [if_pos hu]
      by_cases hsh : w.length < 4
      · simp only [if_pos hsh]
        exact ⟨_, rfl, _, mem_singleton_self _, by decide +kernel⟩
      · rw [decide_eq_false hsh, Bool.false_or, Bool.and_eq_true, List.isEmpty_iff] at h
        obtain ⟨code, hcode⟩ := (hexCode_ok_iff (w.take 4) 0 0).2 h.1
        simp only [if_neg hsh, hcode, h.2]
        exact ⟨_, rfl, _, mem_singleton_self _, by decide +kernel⟩
    · rw [if_neg hu] at h
      cases h

theorem parseCharLiteral_errors {q : UInt8} {t : Text} (h : charLiteralCutOff t = true)
    (hsl : t ≠ [ascii '\\']) :
    ∃ parsed, parseCharLiteral (q :: t) = .ok parsed ∧
      ∃ tx ∈ parsed.errors, tx ≠ columnLimitMessage := by
  rw [parseCharLiteral_cons]
  cases t with
  | nil => exact ⟨_, rfl, _, mem_singleton_self _, by decide +kernel⟩
  | cons b u =>
    by_cases hb : b = ascii '\\'
    · subst hb
      cases u with
      | nil => exact absurd rfl hsl
      | cons e w => exact charLiteralEscape_errors h
    · by_cases hq : b = ascii '\''
      · simp only [charLiteralCutOff, if_pos hq] at h
        cases h
      · simp only [charLiteralCutOff, if_neg hq, if_neg hb, List.isEmpty_iff] at h
        simp only [if_neg hq, if_neg hb, h]
        exact ⟨_, rfl, _, mem_singleton_self _, by decide +kernel⟩

theorem parseNumber_errors {s : Text} (h : numberCutOff s = true) :
    ∃ t end_, parseNumber s = .ok (t, end_, ["Unexpected end of number"]) := by
  obtain ⟨hb, hlen⟩ := Bool.and_eq_true_iff.1 h
  obtain ⟨base, hb⟩ := isSome_iff_exists.1 hb
  have hend : s.drop 2 = [] := by
    rw [← of_decide_eq_true hlen, drop_length]
  refine ⟨.integerNumber, [], ?_⟩
  unfold parseNumber
  rw [peekNext_eq]
  simp only [bind, Except.bind, hb, advance_of_le (Nat.le_of_eq (of_decide_eq_true hlen).symm),
    hend]
  rfl

/-- A comment that is read to the end of the text is left open exactly if it is cut
off. -/
theorem skipComment_depth {it it' : Text} {dep l col dep' l' col' : Nat} (hdep : dep ≠ 0)
    (h : skipComment it dep l col = .done it' dep' l' col') :
    commentCutOff it dep = true → dep' ≠ 0 := by
  fun_induction skipComment it dep l col with
  | case1 => cases h; exact fun _ => hdep
  | case2 => cases h
  | case3 it dep l col hnil hcl hlim hla =>
    rw [commentCutOff, dif_neg hnil, if_pos hcl, if_pos hla]
    intro h
    cases h
  | case4 it dep l col hnil hcl hlim hla ih =>
    rw [commentCutOff, dif_neg hnil, if_pos hcl, if_neg hla]
    exact ih hla h
  | case5 => cases h
  | case6 it dep l col hnil hcl hopen hlim ih =>
    rw [commentCutOff, dif_neg hnil, if_neg hcl, if_pos hopen]
    exact ih (Nat.succ_ne_zero dep) h
  | case7 => cases h
  | case8 it dep l col hnil hcl hopen hnl hlim ih =>
    rw [commentCutOff, dif_neg hnil, if_neg hcl, if_neg hopen, if_pos hnl]
    exact ih hdep h
  | case9 => cases h
  | case10 it dep l col hnil hcl hopen hnl hlim ih =>
    rw [commentCutOff, dif_neg hnil, if_neg hcl, if_neg hopen, if_neg hnl]
    exact ih hdep h

end USprache.LexSynt
