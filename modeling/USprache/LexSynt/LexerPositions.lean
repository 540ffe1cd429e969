import USprache.LexSynt.LexerBoundaries

/-!
# Lines and columns of encoded text

Lines of a list of characters, and what the index from line numbers to byte
positions and the conversion of columns give for a character of a line.
-/

namespace USprache.LexSynt

open List

def IsNewlineChar (c : Char) : Prop := isNewline c.toNat = true

instance : DecidablePred IsNewlineChar := fun c => inferInstanceAs (Decidable (isNewline c.toNat = true))

def skipSecondNewlineChar (c : Char) : List Char → List Char
  | [] => []
  | d :: chars => if isNewlineSequence c.toNat d.toNat then chars else d :: chars

theorem length_skipSecondNewlineChar_le (c : Char) (chars : List Char) :
    (skipSecondNewlineChar c chars).length ≤ chars.length := by
  cases chars with
  | nil => exact le_refl _
  | cons d chars =>
    rw [skipSecondNewlineChar]
    split
    · exact Nat.le_succ _
    · exact le_refl _

theorem skipSecondNewlineChar_suffix (c : Char) (chars : List Char) :
    skipSecondNewlineChar c chars <:+ chars := by
  cases chars with
  | nil => exact suffix_refl _
  | cons d chars =>
    rw [skipSecondNewlineChar]
    split
    · exact suffix_cons d chars
    · exact suffix_refl _

theorem skipSecondNewline_encode (c : Char) (chars : List Char) :
    skipSecondNewline c.toNat (encode chars) = encode (skipSecondNewlineChar c chars) := by
  unfold skipSecondNewline
  cases chars with
  | nil => rfl
  | cons d chars =>
    rw [readNextUTF8Char_encode, skipSecondNewlineChar]
    by_cases hseq : isNewlineSequence c.toNat d.toNat = true
    · rw [if_pos ⟨encode_ne_nil d chars, hseq⟩, if_pos hseq]
    · rw [if_neg (fun h => hseq h.2), if_neg hseq]

/-- The lines behind the first one, each with everything that follows it. -/
def linesBehind : List Char → List (List Char)
  | [] => []
  | c :: chars =>
    if IsNewlineChar c then
      skipSecondNewlineChar c chars :: linesBehind (skipSecondNewlineChar c chars)
    else linesBehind chars
termination_by chars => chars.length
decreasing_by
  · exact Nat.lt_succ_of_le (length_skipSecondNewlineChar_le c chars)
  · exact Nat.lt_succ_self _

theorem lineStarts_encode (sz : Nat) (chars : List Char) : lineStarts sz (encode chars) =
    (linesBehind chars).map fun line => toUInt32 (sz - (encode line).length) := by
  fun_induction linesBehind chars with
  | case1 => rw [lineStarts]; rfl
  | case2 c chars hnl ih =>
    rw [lineStarts, dif_pos (encode_ne_nil c chars), readNextUTF8Char_encode]
    simp only [show isNewline c.toNat = true from hnl, if_true, skipSecondNewline_encode, map_cons]
    rw [ih]
  | case3 c chars hnl ih =>
    rw [lineStarts, dif_pos (encode_ne_nil c chars), readNextUTF8Char_encode]
    exact (if_neg hnl).trans ih

theorem linesBehind_append {cs1 : List Char} (h : ∀ c ∈ cs1, ¬IsNewlineChar c)
    (cs2 : List Char) : linesBehind (cs1 ++ cs2) = linesBehind cs2 := by
  induction cs1 with
  | nil => rfl
  | cons c cs1 ih =>
    rw [cons_append, linesBehind, if_neg (h c mem_cons_self)]
    exact ih (fun d hd => h d (mem_cons_of_mem c hd))

/-- The line with the given number starts with `start`, and everything that follows
it. -/
structure LineStart (chars : List Char) (line : Nat) (start : List Char) : Prop where
  positive : 1 ≤ line
  lines : (chars :: linesBehind chars).drop (line - 1) = start :: linesBehind start
  suffix : start <:+ chars

theorem lineStart_first (chars : List Char) : LineStart chars 1 chars where
  positive := le_refl 1
  lines := rfl
  suffix := suffix_refl chars

variable {chars : List Char} {line : Nat} {rest : List Char} {column : Nat}

theorem LineStart.next {pre post : List Char} {c : Char}
    (h : LineStart chars line (pre ++ c :: post)) (hbef : ∀ d ∈ pre, ¬IsNewlineChar d)
    (hc : IsNewlineChar c) : LineStart chars (line + 1) (skipSecondNewlineChar c post) where
  positive := Nat.le_add_left 1 line
  lines := by
    have hpos := h.positive
    rw [show line + 1 - 1 = line - 1 + 1 by omega, ← drop_drop, h.lines,
      linesBehind_append hbef, linesBehind, if_pos hc]
    rfl
  suffix := (skipSecondNewlineChar_suffix c post).trans ((suffix_cons c post).trans
      ((suffix_append pre (c :: post)).trans h.suffix))

theorem LineStart.index {s : List Char} (h : LineStart chars line s) :
    (buildLineToLinearPositionIndex (encode chars))[line]? =
      some (toUInt32 ((encode chars).length - (encode s).length)) := by
  obtain ⟨n, rfl⟩ : ∃ n, line = n + 1 := ⟨line - 1, by have := h.positive; omega⟩
  have hix : (chars :: linesBehind chars)[n]? = some s := by
    have hlin := h.lines
    rw [Nat.add_sub_cancel] at hlin
    rw [← head?_drop, hlin]
    rfl
  rw [buildLineToLinearPositionIndex, lineStarts_encode, getElem?_cons_succ]
  have hz : 0 = toUInt32 ((encode chars).length - (encode chars).length) := by
    rw [Nat.sub_self]
    rfl
  have hmap : 0 :: (linesBehind chars).map (fun line => toUInt32 ((encode chars).length -
      (encode line).length)) = (chars :: linesBehind chars).map (fun line =>
        toUInt32 ((encode chars).length - (encode line).length)) := by
    rw [map_cons, ← hz]
  rw [hmap, getElem?_map, hix]
  rfl

/-! ## Positions on a line -/

def OnLine (chars : List Char) (line : Nat) (rest : List Char) : Prop :=
  ∃ before, LineStart chars line (before ++ rest) ∧ ∀ c ∈ before, ¬IsNewlineChar c

def AtColumn (chars : List Char) (line column : Nat) (rest : List Char) : Prop :=
  ∃ before, LineStart chars line (before ++ rest) ∧ (∀ c ∈ before, ¬IsNewlineChar c) ∧
    before.length = column

theorem AtColumn.onLine (h : AtColumn chars line column rest) : OnLine chars line rest := by
  obtain ⟨pre, hst, hbef, -⟩ := h
  exact ⟨pre, hst, hbef⟩

theorem OnLine.advance (passed : List Char)
    (h : OnLine chars line (passed ++ rest)) (hpsd : ∀ c ∈ passed, ¬IsNewlineChar c) :
    OnLine chars line rest := by
  obtain ⟨pre, hst, hbef⟩ := h
  refine ⟨pre ++ passed, by rwa [append_assoc], ?_⟩
  intro c hc
  exact (mem_append.1 hc).elim (hbef c) (hpsd c)

theorem AtColumn.advance (passed : List Char)
    (h : AtColumn chars line column (passed ++ rest)) (hpsd : ∀ c ∈ passed, ¬IsNewlineChar c) :
    AtColumn chars line (column + passed.length) rest := by
  obtain ⟨pre, hst, hbef, hcol⟩ := h
  refine ⟨pre ++ passed, by rwa [append_assoc], ?_, by rw [length_append, hcol]⟩
  intro c hc
  exact (mem_append.1 hc).elim (hbef c) (hpsd c)

theorem OnLine.next {c : Char} (h : OnLine chars line (c :: rest)) (hc : IsNewlineChar c) :
    AtColumn chars (line + 1) 0 (skipSecondNewlineChar c rest) := by
  obtain ⟨before, hst, hbef⟩ := h
  exact ⟨[], hst.next hbef hc, by simp, rfl⟩

theorem length_le_length_encode (chars : List Char) : chars.length ≤ (encode chars).length := by
  induction chars with
  | nil => exact le_refl _
  | cons c chars ih =>
    have := length_pos_iff.2 (String.utf8EncodeChar_ne_nil (c := c))
    rw [encode_cons, length_append, length_cons]
    omega

theorem AtColumn.column_le
    (h : AtColumn chars line column rest) : column + (encode rest).length ≤ (encode chars).length := by
  obtain ⟨pre, hst, -, rfl⟩ := h
  obtain ⟨previous, hpre⟩ := hst.suffix
  have := length_le_length_encode pre
  rw [← hpre, encode_append, encode_append, length_append, length_append]
  omega

theorem advanceTo_encode (pre rest : List Char) (pos cur : Nat) (h : cur + pre.length = pos) :
    advanceTo (fun _ => 1) pos (encode (pre ++ rest)) cur = (pos, encode rest) := by
  induction pre generalizing cur with
  | nil =>
    rw [length_nil, add_zero] at h
    rw [nil_append, advanceTo, dif_neg (by omega), h]
  | cons c pre ih =>
    rw [length_cons] at h
    rw [cons_append, advanceTo, dif_pos ⟨encode_ne_nil c _, by omega⟩, readNextUTF8Char_encode]
    exact ih (cur + 1) (by omega)

theorem AtColumn.position
    (h : AtColumn chars line column rest) (hsz : (encode chars).length < 2 ^ 32) :
    ∃ lS off, (buildLineToLinearPositionIndex (encode chars))[line]? = some lS ∧
      utf32PositionToUtf8Position ((encode chars).drop lS) column = some off ∧
      lS + off = (encode chars).length - (encode rest).length := by
  obtain ⟨pre, hst, -, hcol⟩ := h
  obtain ⟨prev, hpre⟩ := hst.suffix
  have hix := hst.index
  have hsp : encode chars = encode prev ++ encode (pre ++ rest) := by
    rw [← encode_append, hpre]
  have hlen : (encode chars).length =
      (encode prev).length + (encode pre).length + (encode rest).length := by
    rw [hsp, encode_append, length_append, length_append]
    omega
  have hlen' : (encode (pre ++ rest)).length = (encode pre).length + (encode rest).length := by
    rw [encode_append, length_append]
  have hdr : (encode chars).drop (encode prev).length = encode (pre ++ rest) := by
    rw [hsp, drop_left]
  rw [toUInt32_of_lt (by omega)] at hix
  refine ⟨(encode prev).length, (encode pre).length, ?_, ?_, by omega⟩
  · rw [hix]
    congr 1
    omega
  · unfold utf32PositionToUtf8Position
    rw [hdr, advanceTo_encode pre rest column 0 (by omega)]
    simp only [ne_eq, not_true_eq_false, if_false]
    rw [toUInt32_of_lt (by omega)]
    congr 1
    omega

end USprache.LexSynt

/-!
## Positions of lexems

The line and the column of a lexem should lead to the byte at which the lexem
starts.  The analyzer counts them on its own, and differently in four places:

* a byte order mark is skipped without moving the column;
* a newline inside a multiline comment leaves the column at one;
* a line comment does not move the column;
* newlines of several bytes inside a multiline comment, and all newlines inside
  literals, do not start a line.

The first three make the column stale up to the next newline that the main loop
handles; behind the last the line is wrong.
-/

namespace USprache.LexSynt

open List Bool

def PositionFaithful (text : Text) (lexem : Lexem) : Prop := ∃ lineStart offset,
    (buildLineToLinearPositionIndex text)[lexem.srcLoc.line]? = some lineStart ∧
    utf32PositionToUtf8Position (text.drop lineStart) lexem.srcLoc.column = some offset ∧
    lineStart + offset = lexem.start

instance (text : Text) (lexem : Lexem) : Decidable (PositionFaithful text lexem) := decidable_of_iff
    ((buildLineToLinearPositionIndex text)[lexem.srcLoc.line]?.any fun lineStart =>
      (utf32PositionToUtf8Position (text.drop lineStart) lexem.srcLoc.column).any fun offset =>
        lineStart + offset = lexem.start)
    (by simp [PositionFaithful, Option.any_eq_true])

/-! ## Where positions are kept -/

def anyCodePoint (p : Nat → Bool) (s : Text) : Bool :=
  if _h : s ≠ [] then p (readNextUTF8Char s).1 || anyCodePoint p (readNextUTF8Char s).2 else false
termination_by s.length
decreasing_by exact readNextUTF8Char_length_lt _h

def containsNewline (s : Text) : Bool := anyCodePoint isNewline s

def containsWideNewline (s : Text) : Bool := anyCodePoint (fun c => isNewline c && 0x80 ≤ c) s

def isBlank : ElementKind → Bool
  | .newline | .whitespace | .lineComment | .comment => true
  | _ => false

def keepsLines (kind : ElementKind) (element : Text) : Bool :=
  match kind with
  | .comment => !containsWideNewline element
  | .newline | .whitespace | .lineComment => true
  | _ => !containsNewline element

def staleAfter (kind : ElementKind) (element : Text) (stale : Bool) : Bool :=
  match kind with
  | .newline => false
  | .lineComment => true
  | .comment => stale || containsNewline element
  | _ => stale

/-- The states at the beginning of a turn of the main loop, with whether the column
is stale. -/
inductive ReachedStale (text : Text) : LexState → Bool → Prop
  | start : ReachedStale text (LexState.start text) (decide ([0xEF, 0xBB, 0xBF] <+: text))
  | step {st st' : LexState} {stale : Bool} : ReachedStale text st stale → st.it ≠ [] →
      st.step text.length = .ok (.next st') →
      ReachedStale text st' (staleAfter (elementKind st.it st.it[1]?) (consumed st.it st'.it) stale)

/-- Positions fit into 32 bits, no newline is hidden inside a lexem or a comment, and
where the column is stale nothing but blanks follows up to the next newline. -/
structure PositionsKept (text : Text) : Prop where
  size_lt : text.length < 2 ^ 32
  keepsLines : ∀ st stale st', ReachedStale text st stale → st.it ≠ [] →
    st.step text.length = .ok (.next st') →
    LexSynt.keepsLines (elementKind st.it st.it[1]?) (consumed st.it st'.it) = true
  not_stale : ∀ st, ReachedStale text st true →
    st.it ≠ [] ∧ isBlank (elementKind st.it st.it[1]?) = true

def checkPositions (size : Nat) : Nat → LexState → Bool → Bool
  | 0, st, stale => decide (st.it = []) && !stale
  | fuel + 1, st, stale =>
    if st.it = [] then !stale
    else
      (!stale || isBlank (elementKind st.it st.it[1]?)) &&
      match st.step size with
      | .ok (.next st') =>
        keepsLines (elementKind st.it st.it[1]?) (consumed st.it st'.it) &&
          checkPositions size fuel st'
            (staleAfter (elementKind st.it st.it[1]?) (consumed st.it st'.it) stale)
      | _ => true

theorem checkPositions_step {sz fuel : Nat} {st : LexState} {stale : Bool}
    (h : checkPositions sz fuel st stale = true) (hne : st.it ≠ []) :
    (stale = true → isBlank (elementKind st.it st.it[1]?) = true) ∧
    ∀ st', st.step sz = .ok (.next st') →
      keepsLines (elementKind st.it st.it[1]?) (consumed st.it st'.it) = true ∧
      ∃ fuel', checkPositions sz fuel' st'
        (staleAfter (elementKind st.it st.it[1]?) (consumed st.it st'.it) stale) = true := by
  cases fuel with
  | zero => simp [checkPositions, hne] at h
  | succ fuel =>
    rw [checkPositions, if_neg hne, and_eq_true] at h
    refine ⟨fun hsta => by simpa [hsta] using h.1, ?_⟩
    intro st' hst
    rw [hst] at h
    have h := and_eq_true_iff.1 h.2
    exact ⟨h.1, fuel, h.2⟩

theorem positionsKept_of_check {t : Text} (fuel : Nat) (hsz : t.length < 2 ^ 32)
    (h : checkPositions t.length fuel (LexState.start t)
      (decide ([0xEF, 0xBB, 0xBF] <+: t)) = true) : PositionsKept t := by
  have hrch : ∀ st stale, ReachedStale t st stale →
      ∃ fuel', checkPositions t.length fuel' st stale = true := by
    intro st stale hrch
    induction hrch with
    | start => exact ⟨fuel, h⟩
    | step _ hne hstep ih =>
      obtain ⟨fuel', hchk⟩ := ih
      exact ((checkPositions_step hchk hne).2 _ hstep).2
  refine ⟨hsz, ?_, ?_⟩
  · intro st stale st' hst hne hstep
    obtain ⟨fuel', hchk⟩ := hrch st stale hst
    exact ((checkPositions_step hchk hne).2 st' hstep).1
  · intro st hst
    obtain ⟨fuel', hchk⟩ := hrch st true hst
    have hne : st.it ≠ [] := by
      intro hnil
      cases fuel' with
      | zero => simp [checkPositions] at hchk
      | succ fuel' => simp [checkPositions, hnil] at hchk
    exact ⟨hne, (checkPositions_step hchk hne).1 rfl⟩

theorem PositionsKept.stale_eq_false {t : Text} {st : LexState} {stale : Bool}
    (h : PositionsKept t) (hrch : ReachedStale t st stale) (hnil : st.it = []) :
    stale = false := by
  cases stale with
  | false => rfl
  | true => exact absurd hnil (h.not_stale st hrch).1

theorem anyCodePoint_encode (p : Nat → Bool) (cs : List Char) :
    anyCodePoint p (encode cs) = cs.any (fun c => p c.toNat) := by
  induction cs with
  | nil => rw [anyCodePoint]; rfl
  | cons c cs ih =>
    rw [anyCodePoint, dif_pos (encode_ne_nil c cs), readNextUTF8Char_encode, ih, any_cons]

theorem no_newline_of_containsNewline {passed : List Char}
    (h : containsNewline (encode passed) = false) : ∀ c ∈ passed, ¬IsNewlineChar c := by
  rw [containsNewline, anyCodePoint_encode, any_eq_false] at h
  exact h

theorem ascii_newline_of_containsWideNewline {passed : List Char}
    (h : containsWideNewline (encode passed) = false) :
    ∀ c ∈ passed, IsNewlineChar c → c.toNat < 0x80 := by
  rw [containsWideNewline, anyCodePoint_encode, any_eq_false] at h
  intro c hc hnl
  have hc := h c hc
  rw [show isNewline c.toNat = true from hnl, Bool.true_and, decide_eq_true_iff] at hc
  omega

theorem countCodePoints_encode (cs : List Char) : countCodePoints (encode cs) = cs.length := by
  induction cs with
  | nil => rw [countCodePoints]; rfl
  | cons c cs ih =>
    rw [countCodePoints, dif_pos (encode_ne_nil c cs), readNextUTF8Char_encode, ih, length_cons]

theorem getUTF8FirstChar_encode (c : Char) (cs : List Char) :
    getUTF8FirstChar (encode (c :: cs)) = c.toNat := by
  rw [getUTF8FirstChar, readNextUTF8Char_encode]

/-! ## Comments -/

theorem skipLineComment_encode (s : List Char) :
    ∃ passed r, s = passed ++ r ∧ skipLineComment (encode s) = encode r ∧
      ∀ c ∈ passed, ¬IsNewlineChar c := by
  induction s with
  | nil => exact ⟨[], [], rfl, by rw [skipLineComment, dif_neg (by simp)], by simp⟩
  | cons c s ih =>
    by_cases hc : IsNewlineChar c
    · refine ⟨[], c :: s, rfl, ?_, by simp⟩
      rw [skipLineComment]
      rw [readNextUTF8Char_encode, show isNewline c.toNat = true from hc]
      simp
    · obtain ⟨passed, r, hs, hsk, hpsd⟩ := ih
      refine ⟨c :: passed, r, by rw [hs, cons_append], ?_, ?_⟩
      · rw [skipLineComment, dif_pos, readNextUTF8Char_encode, hsk]
        rw [readNextUTF8Char_encode]
        exact ⟨encode_ne_nil c s, eq_false_iff.2 hc⟩
      · intro d hd
        rcases mem_cons.1 hd with rfl | hd
        · exact hc
        · exact hpsd d hd

theorem newlineSequence_iff (c0 c1 : Nat) :
    isNewlineSequence c0 c1 = true ↔ c0 = 0x0D ∧ c1 = 0x0A := by
  unfold isNewlineSequence
  simp

variable {b : UInt8} {s : List Char} {line column line' column' : Nat} {it' : Text}

theorem readNextUTF8CharUntil_zero (t : Text) (hb : 0x80 ≤ b.toNat) :
    (readNextUTF8CharUntil (b :: t) 0).1 = 0 := by
  unfold readNextUTF8CharUntil
  have hbyte : ¬byteAt (b :: t) 0 < 0b10000000 := Nat.not_lt.2 hb
  rw [if_neg hbyte]
  split_ifs <;> first | rfl | omega

/-- The second symbol of a line ending is one byte, so that it is found in a comment,
too. -/
theorem skipSecondNewlineInComment_encode (c : Char) (s : List Char) :
    skipSecondNewlineInComment c.toNat (encode s) = encode (skipSecondNewlineChar c s) := by
  unfold skipSecondNewlineInComment
  cases s with
  | nil => rfl
  | cons d s =>
    rw [skipSecondNewlineChar]
    by_cases hd : d.toNat < 0x80
    · have hbyte : (UInt8.ofNat d.toNat).toNat = d.toNat := byte_of_lt (by omega)
      have hrd : readNextUTF8CharUntil (encode (d :: s)) 0 = (d.toNat, encode s) := by
        rw [encode_cons_ascii hd]
        refine (if_pos (show (UInt8.ofNat d.toNat).toNat < 0x80 by omega)).trans ?_
        rw [byteAt_cons_zero, hbyte]
        rfl
      rw [hrd]
      by_cases hseq : isNewlineSequence c.toNat d.toNat = true
      · rw [if_pos ⟨encode_ne_nil d s, hseq⟩, if_pos hseq]
      · rw [if_neg (fun h => hseq h.2), if_neg hseq]
    · have hrd : (readNextUTF8CharUntil (encode (d :: s)) 0).1 = 0 := by
        obtain ⟨b, t, ht⟩ := exists_cons_of_ne_nil (encode_ne_nil d s)
        rw [ht]
        refine readNextUTF8CharUntil_zero t ?_
        by_contra hb
        obtain ⟨d', s', hs, hd', -⟩ := encode_eq_cons_ascii ht (by omega)
        cases hs
        omega
      rw [if_neg, if_neg]
      · rw [newlineSequence_iff]
        omega
      · rw [newlineSequence_iff]
        omega

theorem encode_two_ascii {a b : Char}
    (h : 1 < (encode s).length ∧ byteAt (encode s) 0 = a.toNat ∧ byteAt (encode s) 1 = b.toNat)
    (ha : a.toNat < 0x80) (hb : b.toNat < 0x80) :
    ∃ r, s = a :: b :: r ∧ (encode s).drop 2 = encode r := by
  obtain ⟨hlen, h0, h1⟩ := h
  cases hs : encode s with
  | nil =>
    rw [hs] at hlen
    cases hlen
  | cons x t =>
    rw [hs] at h0 h1 hlen
    rw [byteAt_cons_zero] at h0
    obtain ⟨c, s', rfl, hc, ht⟩ := encode_eq_cons_ascii hs (by omega)
    cases t with
    | nil => simp at hlen
    | cons y u =>
      rw [byteAt_cons_succ, byteAt_cons_zero] at h1
      obtain ⟨d, s'', rfl, hd, hu⟩ := encode_eq_cons_ascii ht.symm (by omega)
      refine ⟨s'', ?_, hu⟩
      rw [Char.toNat_inj.1 (hc.trans h0), Char.toNat_inj.1 (hd.trans h1)]

theorem isNewline_spracheChar (h : isNewline (spracheChar b) = true) : b.toNat < 0x80 := by
  unfold spracheChar at h
  split at h
  · rename_i hb
    exact UInt8.lt_iff_toNat_lt.1 hb
  · unfold isNewline at h
    simp only [or_eq_true, decide_eq_true_iff] at h
    omega

theorem spracheChar_ascii (h : b.toNat < 0x80) : spracheChar b = b.toNat :=
  if_pos (UInt8.lt_iff_toNat_lt.2 h)

/-- A part of a multiline comment keeps the line, as long as no newline of several
bytes is in it, and the column, as long as no newline is. -/
def CommentPositions (s : List Char) (line column : Nat) (it' : Text) (line' column' : Nat) : Prop :=
  ∃ passed rest, s = passed ++ rest ∧ it' = encode rest ∧
    (∀ chars, OnLine chars line s → (∀ c ∈ passed, IsNewlineChar c → c.toNat < 0x80) →
      OnLine chars line' rest) ∧
    ((∀ c ∈ passed, ¬IsNewlineChar c) → line' = line ∧ column' = column + passed.length)

theorem CommentPositions.advance
    (first : List Char) (h : CommentPositions s line (column + first.length) it' line' column')
    (hfst : ∀ c ∈ first, c.toNat < 0x80 → ¬IsNewlineChar c) :
    CommentPositions (first ++ s) line column it' line' column' := by
  obtain ⟨passed, r, rfl, hit, hlin, hcol⟩ := h
  refine ⟨first ++ passed, r, by rw [append_assoc], hit, ?_, ?_⟩
  · intro cs hline hwide
    refine hlin cs (hline.advance first ?_) (fun c hc => hwide c (mem_append_right first hc))
    intro c hc hnl
    exact hfst c hc (hwide c (mem_append_left passed hc) hnl) hnl
  · intro hno
    obtain ⟨hline, hcol⟩ := hcol (fun c hc => hno c (mem_append_right first hc))
    rw [length_append]
    omega

theorem CommentPositions.next {c : Char} {col1 : Nat}
    (h : CommentPositions (skipSecondNewlineChar c s) (line + 1) col1 it' line' column')
    (hc : IsNewlineChar c) : CommentPositions (c :: s) line column it' line' column' := by
  obtain ⟨passed, r, hs, hit, hlin, -⟩ := h
  obtain ⟨second, hsnd⟩ := skipSecondNewlineChar_suffix c s
  refine ⟨c :: (second ++ passed), r, ?_, hit, ?_, ?_⟩
  · rw [cons_append, append_assoc, ← hs, hsnd]
  · intro cs hline hwide
    refine hlin cs (hline.next hc).onLine ?_
    intro d hd
    exact hwide d (mem_cons_of_mem c (mem_append_right second hd))
  · intro hno
    exact absurd hc (hno c mem_cons_self)

theorem commentBrackets_not_newline : (∀ c ∈ ['/', '*'], c.toNat < 0x80 → ¬IsNewlineChar c) ∧
    ∀ c ∈ ['*', '/'], c.toNat < 0x80 → ¬IsNewlineChar c := by
  have hsl : ¬IsNewlineChar '/' := by decide
  have hast : ¬IsNewlineChar '*' := by decide
  constructor
  · simp [hsl, hast]
  · simp [hsl, hast]

theorem skipComment_positions {it : Text} {dep dep' : Nat}
    (h : skipComment it dep line column = .done it' dep' line' column') :
    ∀ s, it = encode s → CommentPositions s line column it' line' column' := by
  fun_induction skipComment it dep line column with
  | case1 dep line column =>
    cases h
    intro s hs
    exact ⟨[], s, rfl, hs, fun _ hline _ => hline, fun _ => ⟨rfl, rfl⟩⟩
  | case2 => cases h
  | case3 it dep line column hnil hbs hlim hla =>
    cases h
    rintro s rfl
    obtain ⟨r, rfl, hdr⟩ := encode_two_ascii hbs (by decide) (by decide)
    refine CommentPositions.advance ['*', '/'] ?_ commentBrackets_not_newline.2
    exact ⟨[], r, rfl, hdr, fun _ hline _ => hline, fun _ => ⟨rfl, rfl⟩⟩
  | case4 it dep line column hnil hbs hlim hla ih =>
    rintro s rfl
    obtain ⟨r, rfl, hdr⟩ := encode_two_ascii hbs (by decide) (by decide)
    exact CommentPositions.advance ['*', '/'] (ih h r hdr) commentBrackets_not_newline.2
  | case5 => cases h
  | case6 it dep line column hnil hnot hbs hlim ih =>
    rintro s rfl
    obtain ⟨r, rfl, hdr⟩ := encode_two_ascii hbs (by decide) (by decide)
    exact CommentPositions.advance ['/', '*'] (ih h r hdr) commentBrackets_not_newline.1
  | case7 => cases h
  | case8 it dep line column hnil hnot hnot' hnl hlim ih =>
    rintro s rfl
    obtain ⟨b, t, hs⟩ := exists_cons_of_ne_nil hnil
    rw [hs, getD_cons_zero] at hnl
    have hb := isNewline_spracheChar hnl
    obtain ⟨c, s, rfl, hc, rfl⟩ := encode_eq_cons_ascii hs hb
    rw [spracheChar_ascii hb, ← hc] at hnl
    refine CommentPositions.next (ih h _ ?_) hnl
    rw [hs, getD_cons_zero, spracheChar_ascii hb, ← hc, drop_succ_cons, drop_zero,
      skipSecondNewlineInComment_encode]
  | case9 => cases h
  | case10 it dep line column hnil hnot hnot' hnl hlim ih =>
    rintro s rfl
    cases s with
    | nil => exact absurd rfl hnil
    | cons c s =>
      refine CommentPositions.advance [c] (ih h s (by rw [readNextUTF8Char_encode])) ?_
      intro d hd hasc hd'
      rw [mem_singleton.1 hd] at hasc hd'
      refine hnl ?_
      have hbyte := byte_of_lt (show c.toNat < 256 by omega)
      rw [encode_cons_ascii hasc, getD_cons_zero, spracheChar_ascii (by omega), hbyte]
      exact hd'

end USprache.LexSynt
