import USprache.LexSynt.LexemPositions
import USprache.LexSynt.PrintedPieces

/-!
# Lexical analysis of a written expression

The lexical analyzer reads the pieces of a written expression one by one.  It gives
their lexems without an error if and only if the column stays within the limit.
-/

namespace USprache.LexSynt

open Piece List

/-- What the main loop has to know of a fixed lexem to get to it. -/
def startsFixedLexem : Text × LexemType → Bool
  | ([b], type) =>
    (b != ascii '/' || type == .slash) && (b != ascii '?' || type == .question)
  | (b :: b' :: _, _) =>
    !(b == ascii '/' && (b' == ascii '/' || b' == ascii '*')) && (b != ascii '?' || b' == ascii '>')
  | ([], _) => false

theorem fixedLexems_start : ∀ e ∈ allFixedLexems, startsFixedLexem e = true := by
  decide +kernel

theorem symbolBytes_class :
    ∀ b ∈ symbolBytes, isNewline b.toNat = false ∧ isWhitespace b.toNat = false ∧
      b.toNat ≠ '"'.toNat ∧ b.toNat ≠ '\''.toNat ∧ isNumberStartChar b.toNat = false := by
  decide +kernel

variable {t : Text}

/-- A byte of a fixed lexem leads to it unless a comment or the identifier of a macro
starts there. -/
theorem elementKind_of_symbolByte {b : UInt8} (hb : b ∈ symbolBytes)
    (hsl : b = ascii '/' → t.head? ≠ some (ascii '/') ∧ t.head? ≠ some (ascii '*'))
    (hq : b = ascii '?' → ∀ b' ∈ t.head?, b' = ascii ' ' ∨ b' = ascii '>') :
    elementKind (b :: t) t.head? = .fixed := by
  obtain ⟨hasc, hst⟩ := symbolBytes_not_start b hb
  obtain ⟨hnl, hwsp, hquote, hapo, hnum⟩ := symbolBytes_class b hb
  have hfst : getUTF8FirstChar (b :: t) = b.toNat := by
    rw [getUTF8FirstChar, readNextUTF8Char_ascii hasc]
  have byte_eq : ∀ {b' : UInt8}, b.toNat = b'.toNat → b = b' := UInt8.toNat_inj.1
  have hcom : ¬(b.toNat = '/'.toNat ∧ t.head? = some (ascii '/')) ∧
      ¬(b.toNat = '/'.toNat ∧ t.head? = some (ascii '*')) :=
    ⟨fun h => (hsl (byte_eq h.1)).1 h.2, fun h => (hsl (byte_eq h.1)).2 h.2⟩
  have hmac : startsMacroIdentifier (b :: t) t.head? = false := by
    unfold startsMacroIdentifier
    rw [hfst]
    cases hc : isMacroIdentifierStartChar b.toNat with
    | false => rfl
    | true =>
      have hb' := hq (byte_eq (of_decide_eq_true hc))
      cases t with
      | nil => rfl
      | cons b' t =>
        rcases hb' b' rfl with rfl | rfl
        · rfl
        · rfl
  unfold elementKind
  simp only [hfst, if_neg hcom.1, if_neg hcom.2, hnl, hwsp, if_neg hquote,
    if_neg hapo, hnum, hst, hmac, Bool.false_eq_true, if_false]

variable {s : Shape} {r : Text}

theorem elementKind_fixed (hty : s.type ≠ .identifier)
    (hfx : (s.text, s.type) ∈ allFixedLexems) (hbr : ∀ b ∈ r.head?, Breaks s b) :
    elementKind (s.text ++ r) (s.text ++ r)[1]? = .fixed := by
  have hbs := fixedLexems_symbolBytes _ hfx
  have hst := fixedLexems_start _ hfx
  obtain ⟨ty, tx⟩ := s
  match tx with
  | [] => cases hst
  | [b] =>
    obtain ⟨hsl, hq⟩ := Bool.and_eq_true_iff.1 hst
    have hnx : ∀ {b'}, b' ∈ r.head? → (ty = .slash → b' ≠ ascii '/' ∧ b' ≠ ascii '*') ∧
        (ty = .question → b' = ascii ' ') := by
      intro b' hb'
      have h := hbr b' hb'
      rw [Breaks, if_neg hty] at h
      exact h.2
    rw [singleton_append, show (b :: r)[1]? = r.head? by cases r <;> rfl]
    refine elementKind_of_symbolByte (hbs b mem_cons_self) (fun hb => ?_) fun hb b' hb' => ?_
    · subst hb
      have hty' : ty = .slash := by simpa using hsl
      exact ⟨fun h => ((hnx h).1 hty').1 rfl, fun h => ((hnx h).1 hty').2 rfl⟩
    · subst hb
      have hty' : ty = .question := by simpa using hq
      exact .inl ((hnx hb').2 hty')
  | b :: b' :: t =>
    obtain ⟨hsl, hq⟩ := Bool.and_eq_true_iff.1 hst
    refine elementKind_of_symbolByte (t := b' :: (t ++ r)) (hbs b mem_cons_self)
      (fun hb => ?_) fun hb c hc => ?_
    · subst hb
      simpa using hsl
    · cases hc
      subst hb
      exact .inr (by simpa using hq)

theorem lookup_fixedLexems : ∀ e ∈ allFixedLexems, 1 ≤ e.1.length ∧ e.1.length ≤ maxFixedLexemSize ∧
    (fixedLexems e.1.length).lookup e.1 = some e.2 := by
  decide +kernel

theorem mem_allFixedLexems {n : Nat} (hn : n ≤ maxFixedLexemSize) {e : Text × LexemType}
    (h : e ∈ fixedLexems n) : e ∈ allFixedLexems := by
  unfold allFixedLexems
  rw [append_assoc]
  match n, hn with
  | 0, _ => cases h
  | 1, _ => exact mem_append_left _ h
  | 2, _ => exact mem_append_right _ (mem_append_left _ h)
  | 3, _ => exact mem_append_right _ (mem_append_right _ h)

/-- The longest match is the lexem: a longer one would start with it and the byte behind
it. -/
theorem findFixedLexem_breaks (hty : s.type ≠ .identifier)
    (hfx : (s.text, s.type) ∈ allFixedLexems) (hbr : ∀ b ∈ r.head?, Breaks s b) :
    findFixedLexem (s.text ++ r) (min maxFixedLexemSize (s.text ++ r).length) =
      some (s.type, s.text.length) := by
  obtain ⟨hpos, hmax, hlk⟩ := lookup_fixedLexems _ hfx
  dsimp only at hpos hmax hlk
  have found : ∀ n, s.text.length ≤ n → n ≤ maxFixedLexemSize → n ≤ (s.text ++ r).length →
      findFixedLexem (s.text ++ r) n = some (s.type, s.text.length) := by
    intro n hle
    induction n, hle using Nat.le_induction with
    | base =>
      intro _ _
      obtain ⟨k, hk⟩ : ∃ k, s.text.length = k + 1 := ⟨s.text.length - 1, by omega⟩
      rw [hk, findFixedLexem, ← hk, take_left, hlk]
    | succ n hle ih =>
      intro hn hlen
      rw [findFixedLexem]
      cases hfd : (fixedLexems (n + 1)).lookup ((s.text ++ r).take (n + 1)) with
      | none => exact ih (by omega) (by omega)
      | some t =>
        exfalso
        obtain ⟨l1, l2, hmem, -⟩ := lookup_eq_some_iff.1 hfd
        have he := mem_allFixedLexems hn
          (show ((s.text ++ r).take (n + 1), t) ∈ fixedLexems (n + 1) by rw [hmem]; simp)
        cases r with
        | nil => rw [append_nil] at hlen; omega
        | cons b r =>
          have h := hbr b rfl
          rw [Breaks, if_neg hty] at h
          refine h.1 _ he ⟨r.take (n - s.text.length), ?_⟩
          rw [take_append, take_of_length_le (show s.text.length ≤ n + 1 by omega),
            show n + 1 - s.text.length = (n - s.text.length) + 1 by omega, take_succ_cons,
            append_assoc, singleton_append]
  refine found _ ?_ (Nat.min_le_left _ _) (Nat.min_le_right _ _)
  rw [length_append]
  exact Nat.le_min.2 ⟨hmax, by omega⟩

theorem isIdentifier_written
    (h : IsName t ∨ ∃ kw ∈ writtenKeywords, t = kw.text) : IsIdentifier t := by
  rcases h with hn | ⟨kw, -, hkw⟩
  · exact hn.1
  · exact hkw ▸ kw.isIdentifier

theorem identifierEnd_encode {cs r : List Char} (hchs : ∀ c ∈ cs, isIdentifierChar c.toNat = true)
    (hrs : ∀ c ∈ r.head?, isIdentifierChar c.toNat = false) :
    identifierEnd (encode (cs ++ r)) = encode r := by
  induction cs with
  | nil =>
    rw [nil_append, identifierEnd]
    cases r with
    | nil => rfl
    | cons c r =>
      rw [readNextUTF8Char_encode, hrs c rfl]
      simp
  | cons c cs ih =>
    rw [cons_append, identifierEnd,
      dif_pos ⟨encode_ne_nil c _, by rw [readNextUTF8Char_encode]; exact hchs c mem_cons_self⟩,
      readNextUTF8Char_encode]
    exact ih fun c hc => hchs c (mem_cons_of_mem _ hc)

theorem elementKind_identifier {it : Text} {next : Option UInt8}
    (h : isIdentifierStartChar (getUTF8FirstChar it) = true) :
    elementKind it next = .identifier := by
  have hran : 'A'.toNat ≤ getUTF8FirstChar it ∧ isNewline (getUTF8FirstChar it) = false ∧
      isWhitespace (getUTF8FirstChar it) = false ∧
      isNumberStartChar (getUTF8FirstChar it) = false := by
    revert h
    simp only [isIdentifierStartChar, isNewline, isWhitespace, isNumberStartChar, Bool.or_eq_true,
      Bool.and_eq_true, decide_eq_true_eq, Bool.or_eq_false_iff, Bool.and_eq_false_iff,
      decide_eq_false_iff_not, Char.reduceToNat]
    omega
  obtain ⟨hge, hnl, hwsp, hnum⟩ := hran
  have hsl : getUTF8FirstChar it ≠ '/'.toNat := by
    have : '/'.toNat < 'A'.toNat := by decide
    omega
  have hq : getUTF8FirstChar it ≠ '"'.toNat := by
    have : '"'.toNat < 'A'.toNat := by decide
    omega
  have hapo : getUTF8FirstChar it ≠ '\''.toNat := by
    have : '\''.toNat < 'A'.toNat := by decide
    omega
  unfold elementKind
  simp only [hsl, hq, hapo, hnl, hwsp, hnum, h, false_and, if_false, Bool.false_eq_true, if_true]

namespace LexState

theorem step_space (sz : Nat) (st : LexState) (hit : st.it = space.text ++ r) :
    st.step sz = .ok (
      if st.column + 1 > maxColumn then .stop { st with it := r, column := st.column + 1 }.columnLimit
      else .next { st with it := r, column := st.column + 1 }) := by
  have hco : st.it = ascii ' ' :: r := hit
  have hfst : getUTF8FirstChar st.it = 0x20 := by
    rw [hco]
    rfl
  have hk : elementKind st.it st.it[1]? = .whitespace := by
    unfold elementKind
    simp only [hfst]
    rfl
  rw [step_eq, hk]
  unfold whitespaceStep
  rw [advance_of_le (by rw [hco, length_cons]; omega), hco]
  simp only [bind, Except.bind]
  split
  · rfl
  · rfl

theorem step_lexem (sz : Nat) (st : LexState) (hs : s.IsWritten)
    (hit : st.it = s.text ++ r) (hrs : Encoded r) (hbr : ∀ b ∈ r.head?, Breaks s b) :
    st.step sz = .ok (st.pushLexem sz s.type s.text r) := by
  rcases hs with ⟨hty, hn⟩ | ⟨hty, -, hfx⟩
  · obtain ⟨c, cs, ht, hc, hchs⟩ := isIdentifier_written hn
    obtain ⟨rCs, rfl⟩ := hrs
    have hit' : st.it = encode (c :: (cs ++ rCs)) := by
      rw [hit, ht, ← encode_append, cons_append]
    have hbh : ∀ c' ∈ rCs.head?, isIdentifierChar c'.toNat = false := by
      intro c' hc'
      obtain ⟨rCs', rfl⟩ : ∃ l, rCs = c' :: l := by
        cases rCs with
        | nil => cases hc'
        | cons _ l => cases hc'; exact ⟨l, rfl⟩
      obtain ⟨b, t, hbt⟩ := exists_cons_of_ne_nil (encode_ne_nil c' rCs')
      have h := hbr b (by rw [hbt]; rfl)
      rw [Breaks, if_pos hty] at h
      obtain ⟨c'', _, heq, hc'', -⟩ := encode_eq_cons_ascii hbt h.1
      cases heq
      rw [hc'']
      exact h.2
    have hend : identifierEnd st.it = encode rCs := by
      rw [hit', ← cons_append]
      refine identifierEnd_encode ?_ hbh
      intro c' hc'
      rcases mem_cons.1 hc' with rfl | hc'
      · unfold isIdentifierChar
        rw [hc]
        rfl
      · exact hchs c' hc'
    have hcsd : consumed st.it (encode rCs) = s.text := by
      rw [hit', ← cons_append, consumed_encode, ht]
    rw [step_eq, elementKind_identifier (by rw [hit', getUTF8FirstChar_encode]; exact hc)]
    rw [hend, hcsd, hty]
  · rw [step_eq, hit, elementKind_fixed hty hfx hbr]
    unfold fixedLexemStep
    rw [hit, findFixedLexem_breaks hty hfx hbr]
    simp only
    rw [advance_of_le (by rw [length_append]; omega), drop_left, take_left]
    rfl

end LexState

theorem exists_encode_of_ascii (h : ∀ b ∈ t, b.toNat < 0x80) :
    ∃ cs, t = encode cs ∧ cs.length = t.length := by
  induction t with
  | nil => exact ⟨[], rfl, rfl⟩
  | cons b t ih =>
    obtain ⟨cs, hchs, hlen⟩ := ih fun b hb => h b (mem_cons_of_mem _ hb)
    have hb := h b mem_cons_self
    have hchar : (Char.ofNat b.toNat).toNat = b.toNat := by
      have hok : b.toNat.isValidChar := .inl (by omega)
      rw [Char.ofNat, dif_pos hok]
      rfl
    refine ⟨Char.ofNat b.toNat :: cs, ?_, congrArg (· + 1) hlen⟩
    rw [encode_cons_ascii (by omega), hchar, ← hchs, UInt8.ofNat_toNat]

theorem encoded_of_ascii (h : ∀ b ∈ t, b.toNat < 0x80) : Encoded t :=
  (exists_encode_of_ascii h).imp fun _ h => h.1

theorem Encoded.append {t1 t2 : Text} (h1 : Encoded t1) (h2 : Encoded t2) : Encoded (t1 ++ t2) := by
  obtain ⟨cs1, rfl⟩ := h1
  obtain ⟨cs2, rfl⟩ := h2
  exact ⟨cs1 ++ cs2, (encode_append cs1 cs2).symm⟩

theorem Shape.IsWritten.encoded (h : s.IsWritten) : Encoded s.text := by
  rcases h with ⟨-, hn⟩ | ⟨-, -, hfx⟩
  · obtain ⟨c, chars, ht, -⟩ := isIdentifier_written hn
    exact ⟨_, ht⟩
  · refine encoded_of_ascii fun b hb => ?_
    exact (symbolBytes_not_start b (fixedLexems_symbolBytes _ hfx b hb)).1

theorem Shape.IsWritten.text_ne_nil (h : s.IsWritten) : s.text ≠ [] := by
  rcases h with ⟨-, hn⟩ | ⟨-, -, hfx⟩
  · obtain ⟨c, cs, ht, -⟩ := isIdentifier_written hn
    exact ht ▸ encode_ne_nil c cs
  · exact length_pos_iff.1 (lookup_fixedLexems _ hfx).1

variable {pieces : List Piece}

theorem encoded_piecesText (h : AllWritten pieces) : Encoded (piecesText pieces) := by
  induction pieces with
  | nil => exact encoded_nil
  | cons pc pieces ih =>
    obtain ⟨hpc, hpcs⟩ := forall_mem_cons.1 h
    refine Encoded.append ?_ (ih hpcs)
    cases pc with
    | space =>
      refine encoded_of_ascii fun b hb => ?_
      obtain rfl : b = ascii ' ' := mem_singleton.1 hb
      decide
    | lexem s => exact (hpc s rfl).encoded

/-- The column behind the pieces, if it stays within the limit. -/
def columnBehind (column : Nat) : List Piece → Option Nat
  | [] => some column
  | piece :: pieces =>
    let column := toUInt32 (column + countCodePoints piece.text)
    if column > maxColumn then none else columnBehind column pieces

theorem consumed_append (t r : Text) : consumed (t ++ r) r = t := by
  rw [consumed, length_append, Nat.add_sub_cancel, take_left]

def LexesPieces (st : LexState) (pieces : List Piece) (result : LexState) : Prop :=
  match columnBehind st.column pieces with
  | none => result.errors ≠ []
  | some _ =>
    result.errors = st.errors ∧ ∃ lexems eof, result.lexems = st.lexems ++ lexems ++ [eof] ∧
        lexems.map Lexem.shape = shapesOf pieces ∧ eof.shape = ⟨.endOfFile, asciiText "EOF"⟩

namespace LexState

theorem loop_piece (sz : Nat) {pc : Piece}
    (hwr : AllWritten (pc :: pieces)) (hbr : pc.BreaksBefore (piecesText pieces))
    {st : LexState} (hit : st.it = pc.text ++ piecesText pieces) (hcol : st.column ≤ maxColumn)
    (fuel : Nat) :
    ∃ added, added.map Lexem.shape = shapesOf [pc] ∧ st.loop sz (fuel + 1) =
        if toUInt32 (st.column + countCodePoints pc.text) > maxColumn then
          .ok { st with
            it := piecesText pieces
            column := toUInt32 (st.column + countCodePoints pc.text) }.columnLimit
        else
          loop sz fuel { st with
            it := piecesText pieces
            column := toUInt32 (st.column + countCodePoints pc.text)
            lexems := st.lexems ++ added } := by
  obtain ⟨hpc, hpcs⟩ := forall_mem_cons.1 hwr
  have hne : st.it ≠ [] := by
    rw [hit]
    cases pc with
    | space => exact cons_ne_nil _ _
    | lexem s => exact append_ne_nil_of_left_ne_nil (hpc s rfl).text_ne_nil _
  rw [loop, if_neg hne]
  cases pc with
  | space =>
    have hc : countCodePoints space.text = 1 := by
      rw [show space.text = encode [' '] by decide, countCodePoints_encode]
      rfl
    have hwrap : toUInt32 (st.column + 1) = st.column + 1 :=
      toUInt32_of_lt (by have : maxColumn < 2 ^ 32 - 1 := by decide
                         omega)
    refine ⟨[], rfl, ?_⟩
    rw [step_space sz st hit, hc, hwrap]
    by_cases hlim : st.column + 1 > maxColumn
    · simp only [if_pos hlim]
    · simp only [if_neg hlim, append_nil]
  | lexem s =>
    refine ⟨[⟨s.text, st.srcLoc, s.type, sz - st.it.length⟩], rfl, ?_⟩
    rw [step_lexem sz st (hpc s rfl) hit (encoded_piecesText hpcs) (hbr s rfl)]
    unfold pushLexem
    rw [hit, text, consumed_append]
    by_cases hlim : toUInt32 (st.column + countCodePoints s.text) > maxColumn
    · simp only [if_pos hlim]
    · simp only [if_neg hlim]

theorem loop_pieces (size : Nat) {pieces : List Piece} (hwr : AllWritten pieces)
    (hsep : SeparatedBefore pieces []) (st : LexState) (hit : st.it = piecesText pieces)
    (hcol : st.column ≤ maxColumn) (fuel : Nat) (hf : pieces.length ≤ fuel) :
    ∃ result, st.loop size fuel = .ok result ∧ LexesPieces st pieces result := by
  induction pieces generalizing st fuel with
  | nil =>
    rw [piecesText_nil] at hit
    refine ⟨st.finish size, ?_, rfl, [], _, by rw [append_nil]; rfl, rfl, rfl⟩
    cases fuel with
    | zero | succ fuel => rw [loop, if_pos hit]
  | cons piece pieces ih =>
    obtain ⟨hbr, hsep⟩ := hsep
    rw [append_nil] at hbr
    obtain ⟨fuel, rfl⟩ : ∃ k, fuel = k + 1 := ⟨fuel - 1, by rw [length_cons] at hf; omega⟩
    obtain ⟨added, hadd, hlp⟩ := loop_piece size hwr hbr hit hcol fuel
    rw [hlp]
    unfold LexesPieces columnBehind
    dsimp only
    split
    · exact ⟨_, rfl, by simp [columnLimit]⟩
    · next hlim =>
      obtain ⟨result, hres, hlex⟩ := ih (forall_mem_cons.1 hwr).2 hsep { st with
          it := piecesText pieces
          column := toUInt32 (st.column + countCodePoints piece.text)
          lexems := st.lexems ++ added } rfl (Nat.le_of_not_lt hlim) fuel
        (by rw [length_cons] at hf; omega)
      refine ⟨result, hres, ?_⟩
      unfold LexesPieces at hlex
      split
      · next hno => rw [hno] at hlex; exact hlex
      · next column hsm =>
        rw [hsm] at hlex
        obtain ⟨herrs, lexems, eof, hlxs, hsh, heof⟩ := hlex
        refine ⟨herrs, added ++ lexems, eof, ?_, ?_, heof⟩
        · rw [hlxs]
          simp
        · rw [map_append, hadd, hsh]
          exact (filterMap_append (l := [piece])).symm

end LexState

theorem start_piecesText (hwr : AllWritten pieces) :
    (LexState.start (piecesText pieces)).it = piecesText pieces := by
  refine if_neg fun hmark => ?_
  obtain ⟨t, ht⟩ := hmark
  cases pieces with
  | nil => cases ht
  | cons pc pieces =>
    obtain ⟨hpc, hpcs⟩ := forall_mem_cons.1 hwr
    rw [piecesText_cons] at ht
    cases pc with
    | space => exact absurd (cons.inj ht).1 (by decide)
    | lexem s =>
      have hs := hpc s rfl
      have hfst : getUTF8FirstChar (s.text ++ piecesText pieces) = 0xFEFF := by
        rw [show (lexem s).text = s.text from rfl] at ht
        rw [← ht]
        exact congrArg Prod.fst (readNextUTF8Char_three t (by decide) (by decide))
      obtain ⟨chars, hchs⟩ := encoded_piecesText hpcs
      obtain ⟨b, t', htext⟩ := exists_cons_of_ne_nil hs.text_ne_nil
      rcases hs with ⟨-, hn⟩ | ⟨-, -, hfx⟩
      · obtain ⟨c, cs, henc, hc, -⟩ := isIdentifier_written hn
        rw [henc, hchs, ← encode_append, cons_append, getUTF8FirstChar_encode] at hfst
        rw [hfst] at hc
        exact absurd hc (by decide)
      · have hmem : b ∈ s.text := by
          rw [htext]
          exact mem_cons_self
        have hasc := (symbolBytes_not_start b (fixedLexems_symbolBytes _ hfx b hmem)).1
        rw [htext, cons_append, getUTF8FirstChar, readNextUTF8Char_ascii hasc] at hfst
        omega

theorem lexicalAnalysis_writeExpression {e : Expression} (h : e.OfOperators)
    {fuel : Nat} (hf : e.pieces.length ≤ fuel) :
    ∃ r, lexicalAnalysis fuel (writeExpression e) = .ok r ∧
      LexesPieces (LexState.start (writeExpression e)) e.pieces r := by
  have hwr := h.allWritten
  have ht : writeExpression e = piecesText e.pieces := h.elementWrite_eq
  refine LexState.loop_pieces _ hwr (h.separatedBefore ?_) _ ?_ (Nat.zero_le _) _ hf
  · rintro b ⟨⟩
  · rw [ht]
    exact start_piecesText hwr

end USprache.LexSynt
