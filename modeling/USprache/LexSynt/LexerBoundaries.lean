import USprache.LexSynt.LexerProgress
import USprache.LexSynt.EncodedText

/-!
# The lexical analyzer on encoded text

Every lexem of an encoded text ends between two characters: the analyzer moves by
whole characters, or it stops behind an ASCII byte.
-/

namespace USprache.LexSynt

open List

/-- The position is between two characters of the encoded text. -/
structure Boundary (it it' : Text) : Prop where
  suffix : it' <:+ it
  encoded : Encoded it'

variable {it it' t : Text} {n : Nat} {type : LexemType}

theorem Boundary.trans {it'' : Text} (h : Boundary it it') (h' : Boundary it' it'') :
    Boundary it it'' :=
  ⟨h'.suffix.trans h.suffix, h'.encoded⟩

theorem boundary_refl (h : Encoded it) : Boundary it it := ⟨suffix_refl it, h⟩

theorem boundary_nil (it : Text) : Boundary it [] := ⟨nil_suffix, encoded_nil⟩

theorem Boundary.passed {s : List Char} (h : Boundary (encode s) it') :
    ∃ passed r, s = passed ++ r ∧ it' = encode r ∧ consumed (encode s) it' = encode passed := by
  obtain ⟨r, rfl⟩ := h.encoded
  obtain ⟨t, ht⟩ := h.suffix
  obtain ⟨passed, hs, rfl⟩ := encode_eq_append_encode ht.symm
  refine ⟨passed, r, hs, rfl, ?_⟩
  rw [consumed, ← ht, length_append, Nat.add_sub_cancel, take_left]

variable (h : Encoded it)

include h

theorem boundary_read (hne : it ≠ []) : Boundary it (readNextUTF8Char it).2 :=
  ⟨readNextUTF8Char_suffix it, h.read hne⟩

theorem boundary_behind_ascii {b : UInt8}
    (hit : it = t ++ b :: it') (hb : b.toNat < 0x80) : Boundary it it' := by
  subst hit
  exact ⟨⟨t ++ [b], by simp⟩, h.of_ascii hb⟩

theorem boundary_drop_ascii
    (hasc : ∀ b ∈ it.take n, b.toNat < 0x80) : Boundary it (it.drop n) := by
  rw [← take_append_drop n it] at h
  exact ⟨drop_suffix n it, h.of_ascii_prefix hasc⟩

theorem boundary_drop_one (hbyte : byteAt it 0 = n)
    (hn : n < 0x80) : Boundary it (it.drop 1) := by
  refine boundary_drop_ascii h ?_
  cases it with
  | nil => simp
  | cons b t =>
    rw [byteAt_cons_zero] at hbyte
    simp only [take_succ_cons, take_zero, mem_singleton, forall_eq]
    omega

theorem boundary_dropWhile {p : UInt8 → Bool}
    (hp : ∀ b, p b = true → b.toNat < 0x80) : Boundary it (it.dropWhile p) := by
  rw [← takeWhile_append_dropWhile (p := p) (l := it)] at h
  refine ⟨dropWhile_suffix p, h.of_ascii_prefix ?_⟩
  intro b hb
  exact hp b (all_eq_true.1 all_takeWhile b hb)

theorem boundary_identifierEnd : Boundary it (identifierEnd it) := by
  fun_induction identifierEnd it with
  | case1 it hchar ih =>
    have hrd := boundary_read h hchar.1
    exact hrd.trans (ih hrd.encoded)
  | case2 it hchar => exact boundary_refl h

omit h in
theorem isDigit_ascii {base : Nat} {b : UInt8} (h : isDigit base b = true) : b.toNat < 0x80 := by
  unfold isDigit tryParseDigit at h
  simp only at h
  have h9 : '9'.toNat < 0x80 := by decide
  have hf : 'f'.toNat < 0x80 := by decide
  have hF : 'F'.toNat < 0x80 := by decide
  split_ifs at h
  · omega
  · omega
  · omega
  · cases h

theorem boundary_fractionalPart : Boundary it (fractionalPart it).2 := by
  unfold fractionalPart
  split
  · rename_i hdot
    have hdr := boundary_drop_one h hdot.2 (by decide)
    exact hdr.trans (boundary_dropWhile hdr.encoded (fun _ => isDigit_ascii))
  · exact boundary_refl h

theorem boundary_exponentPart : Boundary it (exponentPart it).2 := by
  unfold exponentPart
  split
  · rename_i hlet
    have hdr : Boundary it (it.drop 1) := by
      rcases hlet.2 with hlet | hlet
      · exact boundary_drop_one h hlet (by decide)
      · exact boundary_drop_one h hlet (by decide)
    have hsign : Boundary it (if it.drop 1 ≠ [] ∧ (byteAt (it.drop 1) 0 = '-'.toNat ∨
        byteAt (it.drop 1) 0 = '+'.toNat) then (it.drop 1).drop 1 else it.drop 1) := by
      split
      · rename_i hsign
        rcases hsign.2 with hsign | hsign
        · exact hdr.trans (boundary_drop_one hdr.encoded hsign (by decide))
        · exact hdr.trans (boundary_drop_one hdr.encoded hsign (by decide))
      · exact hdr
    exact hsign.trans (boundary_dropWhile hsign.encoded (fun _ => isDigit_ascii))
  · exact boundary_refl h

omit h in
theorem boundary_extractIntegerNumberChars (base : Nat) (h : Encoded it) :
    Boundary it (extractIntegerNumberChars base it).1 := by
  unfold extractIntegerNumberChars
  split
  · exact boundary_refl h
  · exact boundary_dropWhile h (fun _ => isDigit_ascii)

omit h in
theorem baseOfLetter_ascii {d : UInt8} {base : Nat} (h : baseOfLetter d = some base) :
    d.toNat < 0x80 := by
  unfold baseOfLetter at h
  split_ifs at h with hb ho hx
  · rw [hb]
    decide
  · rw [ho]
    decide
  · rw [hx]
    decide

theorem boundary_parseNumber {end_ : Text} {errs : List String}
    (hnum : parseNumber it = .ok (type, end_, errs)) : Boundary it end_ := by
  unfold parseNumber at hnum
  rw [peekNext_eq] at hnum
  simp only [bind, Except.bind] at hnum
  cases hbase : prefixedBase it it[1]? with
  | some base =>
    rw [hbase] at hnum
    obtain ⟨it', hit', hnum⟩ := except_bind_ok hnum
    cases hnum
    rw [advance_eq_ok hit']
    have hdr : Boundary it (it.drop 2) := by
      refine boundary_drop_ascii h ?_
      unfold prefixedBase at hbase
      split at hbase
      · rename_i hz
        match it with
        | [] => simp
        | [b] => cases hbase
        | b :: d :: t =>
          have hd := baseOfLetter_ascii hbase
          have hz : b.toNat = '0'.toNat := hz
          have hb : b.toNat < 0x80 := by rw [hz]; decide
          simp [hb, hd]
      · cases hbase
    exact hdr.trans (boundary_extractIntegerNumberChars base hdr.encoded)
  | none =>
    rw [hbase] at hnum
    cases hnum
    have hds := boundary_dropWhile (p := isDigit 10) h (fun _ => isDigit_ascii)
    have hfr := boundary_fractionalPart hds.encoded
    exact hds.trans (hfr.trans (boundary_exponentPart hfr.encoded))

theorem boundary_parseMacroIdentifier {end_ : Text}
    (hbyte : byteAt it 0 = '?'.toNat) (hpa : parseMacroIdentifier it = .ok (type, end_)) :
    Boundary it end_ := by
  obtain ⟨it', hit', hpa⟩ := except_bind_ok hpa
  rw [advance_eq_ok hit'] at hpa
  have hdr := boundary_drop_one h hbyte (by decide)
  split at hpa
  · rename_i hsnd
    obtain ⟨it'', hit'', hpa⟩ := except_bind_ok hpa
    rw [advance_eq_ok hit''] at hpa
    cases hpa
    have hdr' := boundary_drop_one hdr.encoded (of_decide_eq_true hsnd.2) (by decide)
    exact hdr.trans (hdr'.trans (boundary_identifierEnd hdr'.encoded))
  · cases hpa
    exact hdr.trans (boundary_identifierEnd hdr.encoded)

omit h in
theorem fixedLexems_ascii (n : Nat) :
    (fixedLexems n).all (fun e => e.1.all (fun b => decide (b.toNat < 0x80))) = true := by
  match n with
  | 0 => rfl
  | 1 => rfl
  | 2 => rfl
  | 3 => rfl
  | n + 4 => rfl

theorem boundary_fixedLexem {s : Nat}
    (hfd : findFixedLexem it n = some (type, s)) : Boundary it (it.drop s) := by
  induction n with
  | zero => cases hfd
  | succ n ih =>
    rw [findFixedLexem] at hfd
    split at hfd
    · rename_i hlk
      cases hfd
      obtain ⟨l1, l2, hmem, -⟩ := lookup_eq_some_iff.1 hlk
      have he := all_eq_true.1 (fixedLexems_ascii (n + 1)) (it.take (n + 1), type)
        (by rw [hmem]; simp)
      refine boundary_drop_ascii h ?_
      intro b hb
      exact of_decide_eq_true (all_eq_true.1 he b hb)
    · exact ih hfd

omit h

/-- A string literal without an error ends behind its closing quote or at the end of
the text. -/
theorem parseStringLoop_behind {tx : Text} (h : (parseStringLoop tx t).errors = []) :
    (parseStringLoop tx t).it = [] ∨ ∃ u, t = u ++ ascii '"' :: (parseStringLoop tx t).it := by
  fun_induction parseStringLoop tx t with
  | case1 | case4 => exact .inl rfl
  | case2 tx r => exact .inr ⟨[], rfl⟩
  | case3 => cases h
  | case5 tx e r b hesc hq hctl ih =>
    rcases ih h with hnil | ⟨u, hu⟩
    · exact .inl hnil
    · exact .inr ⟨_ :: _ :: u, by rw [cons_append, cons_append, ← hu]⟩
  | case6 => cases h
  | case7 tx h1 h2 h3 h4 r code hcode hq hctl hu ih =>
    rcases ih h with hnil | ⟨u, hu⟩
    · exact .inl hnil
    · refine .inr ⟨ascii '\\' :: ascii 'u' :: h1 :: h2 :: h3 :: h4 :: u, ?_⟩
      simp only [cons_append, ← hu]
  | case8 => cases h
  | case9 => cases h
  | case10 tx b r hq hctl hsl ih =>
    rcases ih h with hnil | ⟨u, hu⟩
    · exact .inl hnil
    · exact .inr ⟨_ :: u, by rw [cons_append, ← hu]⟩

theorem charLiteralEnd_behind {tx : Text} (h : (charLiteralEnd tx it).errors = []) :
    it = ascii '\'' :: (charLiteralEnd tx it).it := by
  cases it with
  | nil => cases h
  | cons b rest =>
    simp only [charLiteralEnd] at h ⊢
    by_cases hb : b ≠ ascii '\''
    · rw [if_pos hb] at h
      cases h
    · rw [if_neg hb]
      rw [not_not.1 hb]

theorem charLiteralEscape_behind {e : UInt8} {w : Text} {parsed : Parsed}
    (hpa : charLiteralEscape e w = .ok parsed) (h : parsed.errors = []) :
    ∃ u, w = u ++ ascii '\'' :: parsed.it := by
  unfold charLiteralEscape at hpa
  split at hpa
  · cases hpa
    exact ⟨[], charLiteralEnd_behind h⟩
  · split at hpa
    · split at hpa
      · cases hpa
        cases h
      · split at hpa
        · cases hpa
          cases h
        · cases hpa
          refine ⟨w.take 4, ?_⟩
          rw [← charLiteralEnd_behind h, take_append_drop]
    · cases hpa
      cases h

theorem parseCharLiteral_behind {q : UInt8} {parsed : Parsed}
    (hpa : parseCharLiteral (q :: t) = .ok parsed) (h : parsed.errors = []) :
    ∃ u, t = u ++ ascii '\'' :: parsed.it := by
  rw [parseCharLiteral_cons] at hpa
  cases t with
  | nil =>
    cases hpa
    cases h
  | cons b u =>
    simp only at hpa
    split at hpa
    · cases hpa
      cases h
    split at hpa
    · cases u with
      | nil => cases hpa
      | cons e w =>
        obtain ⟨v, hv⟩ := charLiteralEscape_behind hpa h
        exact ⟨b :: e :: v, by rw [cons_append, cons_append, ← hv]⟩
    · cases hpa
      obtain ⟨k, -, -, hrd⟩ := readNextUTF8Char_cases (b :: u)
      have hend := charLiteralEnd_behind h
      refine ⟨(b :: u).take k, ?_⟩
      rw [← hend, hrd, take_append_drop]

end USprache.LexSynt
