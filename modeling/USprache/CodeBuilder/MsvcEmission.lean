import Mathlib.Tactic.Ring
import USprache.CodeBuilder.MsvcBackReferences
import USprache.CodeBuilder.MsvcDeclaredTypes
import USprache.Library.PrefixCode

/-!
# The text of calls

What calls write depends on the table of names only, as long as the text is short enough.
Codes are read with respect to such a table.
-/

namespace USprache.CodeBuilder

open LexSynt Library List Nat

namespace Msvc

def emitName (names : List Text) (str : Text) (useTerminator : Bool) : Text :=
  match names.idxOf? str with
  | some i => [digit i]
  | none => str ++ terminatorIf useTerminator

def emitCall (names : List Text) : Call → Text
  | .encodeName str => emitName names str true
  | .encodeNameNoTerminator str => emitName names str false
  | .pushElement str => str

def tableAfter (names : List Text) (calls : List Call) : List Text :=
  (callNames calls).foldl (addDistinct numBackReferences) names

/-- The text that the calls write when the table is `names`. -/
def emit (names : List Text) : List Call → Text
  | [] => []
  | call :: calls => emitCall names call ++ emit (tableAfter names [call]) calls

theorem callNames_append (calls cs' : List Call) :
    callNames (calls ++ cs') = callNames calls ++ callNames cs' := filterMap_append

theorem tableAfter_append (names : List Text) (calls cs' : List Call) :
    tableAfter names (calls ++ cs') = tableAfter (tableAfter names calls) cs' := by
  rw [tableAfter, callNames_append, foldl_append]
  rfl

@[simp] theorem emit_nil (names : List Text) : emit names [] = [] := rfl

theorem emit_append (names : List Text) (calls cs' : List Call) :
    emit names (calls ++ cs') = emit names calls ++ emit (tableAfter names calls) cs' := by
  induction calls generalizing names with
  | nil => rfl
  | cons call calls ih =>
    rw [cons_append, emit, emit, ih, append_assoc, ← tableAfter_append]
    rfl

@[simp] theorem emit_pushElement (names : List Text) (str : Text) :
    emit names [.pushElement str] = str := append_nil str

@[simp] theorem emit_encodeName (names : List Text) (str : Text) :
    emit names [.encodeName str] = emitName names str true := append_nil _

@[simp] theorem emit_encodeNameNoTerminator (names : List Text) (str : Text) :
    emit names [.encodeNameNoTerminator str] = emitName names str false := append_nil _

@[simp] theorem tableAfter_pushElement (names : List Text) (str : Text) :
    tableAfter names [.pushElement str] = names := rfl

@[simp] theorem callNames_pushElement (str : Text) : callNames [.pushElement str] = [] := rfl

@[simp] theorem callNames_encodeName (str : Text) : callNames [.encodeName str] = [str] := rfl

@[simp] theorem callNames_encodeNameNoTerminator (str : Text) :
    callNames [.encodeNameNoTerminator str] = [str] := rfl

theorem callNames_flatMap {α : Type} (encode : α → List Call) (xs : List α) :
    callNames (xs.flatMap encode) = xs.flatMap (fun a => callNames (encode a)) := by
  induction xs with
  | nil => rfl
  | cons a xs ih => rw [flatMap_cons, callNames_append, ih, flatMap_cons]

variable {calls : List Call} {names : List Text} {s : ManglerState}

theorem emit_of_callNames_nil (h : callNames calls = []) (names : List Text) :
    emit names calls = calls.flatMap Call.uncompressed := by
  induction calls with
  | nil => rfl
  | cons c calls ih =>
    rw [callNames_cons, append_eq_nil_iff] at h
    have htab : tableAfter names [c] = names := by
      rw [tableAfter, h.1]
      rfl
    rw [emit, htab, ih h.2]
    cases c with
    | encodeName str => cases h.1
    | encodeNameNoTerminator str => cases h.1
    | pushElement str => rfl

theorem tableAfter_of_callNames_nil (h : callNames calls = [])
    (names : List Text) : tableAfter names calls = names := by
  rw [tableAfter, h]
  rfl

theorem length_tableAfter_le (h : names.length ≤ numBackReferences)
    (calls : List Call) : (tableAfter names calls).length ≤ numBackReferences := by
  rw [tableAfter]
  induction callNames calls generalizing names with
  | nil => exact h
  | cons n others ih =>
    apply ih
    by_cases hmem : n ∈ names
    · rwa [addDistinct_of_mem hmem]
    · rw [addDistinct_of_not_mem hmem]
      split
      · rw [length_append, length_singleton]
        omega
      · exact h

theorem render_namePiece (h : Registers s names) {str : Text}
    (hstr : str ≠ []) (useTerminator : Bool) :
    (s.namePiece str useTerminator).render = emitName names str useTerminator := by
  rw [namePiece_eq h hstr, emitName]
  cases names.idxOf? str <;> rfl

theorem render_piece (h : Registers s names) {c : Call}
    (hn : ∀ n ∈ c.name?, n ≠ []) : (s.piece c).render = emitCall names c := by
  cases c with
  | encodeName str => exact render_namePiece h (hn str rfl) true
  | encodeNameNoTerminator str => exact render_namePiece h (hn str rfl) false
  | pushElement str => rfl

theorem Registers.length_le_of_mem (h : Registers s names)
    {n : Text} (hn : n ∈ names) : n.length ≤ s.res.length := by
  obtain ⟨i, hi, hget⟩ := getElem_of_mem hn
  obtain ⟨br, -, hden⟩ := h.slot (List.getElem?_eq_some_iff.2 ⟨hi, hget⟩)
  rw [← hden.text_eq, BackReference.text, length_take, length_drop]
  omega

theorem Registers.name_length_le (h : Registers s names)
    {str : Text} (hstr : str ≠ []) (useTerminator : Bool) :
    str.length ≤ (s.encodeNameImpl str useTerminator).res.length := by
  rw [ManglerState.res_encodeNameImpl, render_namePiece h hstr, emitName, length_append]
  cases hfd : names.idxOf? str with
  | none =>
    rw [length_append]
    omega
  | some i =>
    obtain ⟨hlt, hget, -⟩ := idxOf?_eq_some_iff.1 hfd
    have hle := h.length_le_of_mem (hget ▸ getElem_mem hlt)
    omega

theorem Registers.run_eq_emit (h : Registers s names)
    (calls : List Call) (hns : ∀ n ∈ callNames calls, n ≠ [])
    (hsz : (s.run calls).res.length < 2 ^ 32) :
    (s.run calls).res = s.res ++ emit names calls ∧
      ∀ n ∈ callNames calls, n.length ≤ (s.run calls).res.length := by
  induction calls generalizing s names with
  | nil => exact ⟨(append_nil _).symm, fun n hn => nomatch hn⟩
  | cons c calls ih =>
    rw [callNames_cons, forall_mem_append] at hns
    have hle : (s.perform c).res.length ≤ (s.run (c :: calls)).res.length :=
      ((s.perform c).res_prefix_run calls).length_le
    have hn : ∀ n ∈ c.name?, n ≠ [] := by
      intro n hn
      apply hns.1
      rw [callNames, mem_filterMap]
      exact ⟨c, mem_singleton_self c, hn⟩
    obtain ⟨hregs, -, htab⟩ := h.perform hn (by omega)
    obtain ⟨hres, hlens⟩ := ih hregs hns.2 hsz
    refine ⟨?_, ?_⟩
    · rw [ManglerState.run_cons, hres, ManglerState.res_perform, render_piece h hn, htab,
        append_assoc]
      rfl
    · rw [callNames_cons, forall_mem_append]
      refine ⟨fun n hmem => ?_, hlens⟩
      refine le_trans ?_ hle
      cases c with
      | encodeName str =>
        rw [mem_singleton.1 hmem]
        exact h.name_length_le (hn str rfl) true
      | encodeNameNoTerminator str =>
        rw [mem_singleton.1 hmem]
        exact h.name_length_le (hn str rfl) false
      | pushElement str => cases hmem

def Named (calls : List Call) : Prop := ∀ name ∈ callNames calls, name ≠ []

/-- What the calls write is short enough for the slots, and so are the names. -/
structure Fits (names : List Text) (calls : List Call) : Prop where
  length_lt : (emit names calls).length < 2 ^ 32
  name_length_lt : ∀ name ∈ callNames calls, name.length < 2 ^ 32

theorem named_append {cs' : List Call} : Named (calls ++ cs') ↔ Named calls ∧ Named cs' := by
  rw [Named, callNames_append, forall_mem_append]
  rfl

theorem Fits.append {cs' : List Call} (h : Fits names (calls ++ cs')) :
    Fits names calls ∧ Fits (tableAfter names calls) cs' := by
  have hlen := h.length_lt
  have hns := h.name_length_lt
  rw [emit_append, length_append] at hlen
  rw [callNames_append, forall_mem_append] at hns
  exact ⟨⟨by omega, hns.1⟩, ⟨by omega, hns.2⟩⟩

theorem named_of_callNames_nil (h : callNames calls = []) : Named calls := by
  intro name hn
  rw [h] at hn
  cases hn

theorem named_flatMap {α : Type} {encode : α → List Call} {xs : List α}
    (h : ∀ a ∈ xs, Named (encode a)) : Named (xs.flatMap encode) := by
  intro n hn
  rw [callNames_flatMap, mem_flatMap] at hn
  obtain ⟨a, ha, hn⟩ := hn
  exact h a ha n hn

/-- With each table, what is written for the values in `Valid` is read in one way, if what is
behind it is in `Follow`. -/
def Reads {α : Type} (encode : α → List Call) (Valid : α → Prop) (Follow : Text → Prop) : Prop :=
  ∀ names : List Text, names.length ≤ numBackReferences →
    Decodes (fun a => emit names (encode a)) (fun a => Valid a ∧ Fits names (encode a)) Follow

namespace Reads

variable {α : Type} {encode : α → List Call} {Valid : α → Prop} {Follow : Text → Prop}

theorem list (Stop : Text → Prop) (h : Reads encode Valid Follow)
    (hwd : ∀ names a r, names.length ≤ numBackReferences → Valid a →
      Follow (emit names (encode a) ++ r) ∧ ¬Stop (emit names (encode a) ++ r))
    (hsto : ∀ r, Stop r → Follow r) :
    Reads (flatMap encode) (fun as => ∀ a ∈ as, Valid a) Stop := by
  have hfol : ∀ (as : List α) (names r : List _), names.length ≤ numBackReferences →
      (∀ a ∈ as, Valid a) → Stop r → Follow (emit names (as.flatMap encode) ++ r) := by
    intro as names r hlen has hrs
    cases as with
    | nil => exact hsto r hrs
    | cons a as =>
      rw [flatMap_cons, emit_append, append_assoc]
      exact (hwd names a _ hlen (has a mem_cons_self)).1
  intro names hlen as
  induction as generalizing names with
  | nil =>
    intro as' r r' _ has' hrs _ heq
    cases as' with
    | nil => exact ⟨rfl, heq⟩
    | cons a' as' =>
      simp only [flatMap_nil, emit_nil, nil_append, flatMap_cons, emit_append, append_assoc] at heq
      exact absurd (heq ▸ hrs) (hwd names a' _ hlen (has'.1 a' mem_cons_self)).2
  | cons a as ih =>
    intro as' r r' has has' hrs hrs' heq
    cases as' with
    | nil =>
      simp only [flatMap_nil, emit_nil, nil_append, flatMap_cons, emit_append, append_assoc] at heq
      exact absurd (heq.symm ▸ hrs') (hwd names a _ hlen (has.1 a mem_cons_self)).2
    | cons a' as' =>
      simp only [forall_mem_cons] at has has'
      have hfit := has.2.append
      have hfit' := has'.2.append
      simp only [flatMap_cons, emit_append, append_assoc] at heq
      have hlen' : ∀ calls, (tableAfter names calls).length ≤ numBackReferences :=
        length_tableAfter_le hlen
      obtain ⟨rfl, htl⟩ := h names hlen ⟨has.1.1, hfit.1⟩ ⟨has'.1.1, hfit'.1⟩
        (hfol as _ r (hlen' _) has.1.2 hrs)
        (hfol as' _ r' (hlen' _) has'.1.2 hrs') heq
      obtain ⟨rfl, rfl⟩ := ih _ (hlen' _) ⟨has.1.2, hfit.2⟩ ⟨has'.1.2, hfit'.2⟩ hrs hrs' htl
      exact ⟨rfl, rfl⟩

end Reads

end Msvc

namespace WithArgs.ManglerMsvc

open Msvc

theorem written_eq {calls : List Call} (hnam : Named calls)
    (hsz : (written calls).length < 2 ^ 32) : written calls = emit [] calls ∧ Fits [] calls := by
  obtain ⟨hres, hlens⟩ := registers_start.run_eq_emit calls hnam hsz
  have heq : written calls = emit [] calls := hres.trans (nil_append _)
  exact ⟨heq, heq ▸ hsz, fun n hn => lt_of_le_of_lt (hlens n hn) hsz⟩

theorem hexDigit_eq (absV i : Nat) : hexDigit absV i = absV / 16 ^ i % 16 := by
  rw [hexDigit, shiftRight_eq_div_pow, pow_mul]
  exact and_two_pow_sub_one_eq_mod _ 4

def hexValue (digits : Text) : Nat :=
  digits.foldl (fun value b => value * 16 + (b.toNat - 'A'.toNat)) 0

theorem toNat_hexChar {d : Nat} (h : d < 16) : (UInt8.ofNat ('A'.toNat + d)).toNat = 'A'.toNat + d := by
  have hA : 'A'.toNat = 65 := rfl
  rw [UInt8.toNat_ofNat']
  omega

variable (k : Nat)

theorem foldl_hexDigits (absV v : Nat) :
    (hexDigits absV k).foldl (fun v b => v * 16 + (b.toNat - 'A'.toNat)) v =
      v * 16 ^ (k + 1) + absV % 16 ^ (k + 1) := by
  have hd : ∀ i, (UInt8.ofNat ('A'.toNat + hexDigit absV i)).toNat - 'A'.toNat =
      absV / 16 ^ i % 16 := by
    intro i
    rw [toNat_hexChar (by rw [hexDigit_eq]; omega), hexDigit_eq]
    omega
  induction k generalizing v with
  | zero =>
    rw [hexDigits, foldl_cons, hd]
    simp
  | succ k ih =>
    rw [hexDigits, foldl_cons, hd, ih, pow_succ 16 (k + 1), mod_mul]
    ring

variable {absV : Nat}

theorem lt_pow_leadingHexDigit (h : absV < 16 ^ (k + 1)) :
    absV < 16 ^ (leadingHexDigit absV k + 1) := by
  induction k with
  | zero => exact h
  | succ k ih =>
    rw [leadingHexDigit]
    split
    case isTrue hz =>
      apply ih
      rw [hexDigit_eq] at hz
      have hlt : absV / 16 ^ (k + 1) < 16 := by
        apply Nat.div_lt_of_lt_mul
        rwa [← pow_succ]
      have hdiv : absV / 16 ^ (k + 1) = 0 := by
        rw [mod_eq_of_lt hlt] at hz
        exact hz
      exact (div_eq_zero_iff_lt (Nat.pow_pos (by decide))).1 hdiv
    case isFalse => exact h

theorem hexValue_hexDigits (h : absV < 2 ^ 64) :
    hexValue (hexDigits absV (leadingHexDigit absV 15)) = absV := by
  rw [hexValue, foldl_hexDigits, zero_mul, zero_add]
  exact mod_eq_of_lt (lt_pow_leadingHexDigit 15 h)

def IsHexChar (b : UInt8) : Prop := 'A'.toNat ≤ b.toNat ∧ b.toNat < 'A'.toNat + 16

theorem isHexChar_hexDigits (absV : Nat) : ∀ b ∈ hexDigits absV k, IsHexChar b := by
  have hchar : ∀ i, IsHexChar (UInt8.ofNat ('A'.toNat + hexDigit absV i)) := by
    intro i
    have hlt : hexDigit absV i < 16 := by
      rw [hexDigit_eq]
      omega
    rw [IsHexChar, toNat_hexChar hlt]
    omega
  induction k with
  | zero =>
    rw [hexDigits, forall_mem_singleton]
    exact hchar 0
  | succ k ih =>
    rw [hexDigits, forall_mem_cons]
    exact ⟨hchar (k + 1), ih⟩

theorem hexDigits_ne_nil (absV : Nat) : hexDigits absV k ≠ [] := by
  cases k <;> exact cons_ne_nil _ _

theorem absValueText_cases (h : absV < 2 ^ 64) :
    (0 < absV ∧ absV ≤ 10 ∧ absValueText absV = [UInt8.ofNat (absV - 1 + '0'.toNat)]) ∨
    ∃ ds, absValueText absV = ds ++ [terminator] ∧ ds ≠ [] ∧
      (∀ b ∈ ds, IsHexChar b) ∧ hexValue ds = absV := by
  rw [absValueText]
  by_cases hz : absV = 0
  · subst hz
    refine .inr ⟨asciiText "A", rfl, by decide, ?_, by decide⟩
    rintro b (⟨⟩ | ⟨_, ⟨⟩⟩)
    exact ⟨by decide, by decide⟩
  · rw [if_neg hz]
    by_cases hsm : absV ≤ 10
    · rw [if_pos hsm]
      exact .inl ⟨by omega, hsm, rfl⟩
    · rw [if_neg hsm]
      exact .inr ⟨_, rfl, hexDigits_ne_nil _ _, isHexChar_hexDigits _ _, hexValue_hexDigits h⟩

theorem toNat_decimalChar {n : Nat} (h : n < 10) :
    (UInt8.ofNat (n + '0'.toNat)).toNat = n + '0'.toNat := by
  have hz : '0'.toNat = 48 := rfl
  rw [UInt8.toNat_ofNat']
  omega

theorem decimalChar_ne_hex (hpos : 0 < absV) (hle : absV ≤ 10)
    {ds r r' : Text} (hds : ds ≠ []) (hhex : ∀ b ∈ ds, IsHexChar b) :
    [UInt8.ofNat (absV - 1 + '0'.toNat)] ++ r ≠ ds ++ r' := by
  intro heq
  obtain ⟨b, others, rfl⟩ := exists_cons_of_ne_nil hds
  rw [singleton_append, cons_append, cons.injEq] at heq
  have hb := (hhex b mem_cons_self).1
  have hA : 'A'.toNat = 65 := rfl
  have hz : '0'.toNat = 48 := rfl
  rw [← heq.1, toNat_decimalChar (by omega)] at hb
  omega

theorem absValueText_decodes : Decodes absValueText (· < 2 ^ 64) (fun _ => True) := by
  intro value value' r r' hv hv' _ _ heq
  rcases absValueText_cases hv with ⟨hpos, hle, ht⟩ | ⟨ds, ht, hne, hhex, hds⟩ <;>
    rcases absValueText_cases hv' with ⟨hpos', hle', ht'⟩ | ⟨ds', ht', hne', hhex', hds'⟩ <;>
    rw [ht, ht'] at heq
  · rw [singleton_append, singleton_append, cons.injEq, ← UInt8.toNat_inj,
      toNat_decimalChar (by omega), toNat_decimalChar (by omega)] at heq
    exact ⟨by omega, heq.2⟩
  · rw [append_assoc ds'] at heq
    exact absurd heq (decimalChar_ne_hex hpos hle hne' hhex')
  · rw [append_assoc ds] at heq
    exact absurd heq.symm (decimalChar_ne_hex hpos' hle' hne hhex)
  · rw [append_assoc, append_assoc] at heq
    have hter : ∀ r, ∀ b ∈ ([terminator] ++ r).head?, ¬IsHexChar b := by
      rintro r b ⟨⟩ ⟨hle, -⟩
      revert hle
      decide
    obtain ⟨rfl, htl⟩ := append_inj_of_all hhex hhex' (hter r) (hter r') heq
    exact ⟨hds.symm.trans hds', append_cancel_left htl⟩

theorem absValueText_head (h : absV < 2 ^ 64) (r : Text) :
    (absValueText absV ++ r).head? ≠ some (ascii '?') := by
  rcases absValueText_cases h with ⟨hpos, hle, ht⟩ | ⟨digits, ht, hne, hhex, -⟩
  · rw [ht]
    intro heq
    have hhd := Option.some.inj heq
    rw [← UInt8.toNat_inj, toNat_decimalChar (by omega)] at hhd
    have hq : (ascii '?').toNat = 63 := rfl
    have hz : '0'.toNat = 48 := rfl
    omega
  · obtain ⟨b, others, rfl⟩ := exists_cons_of_ne_nil hne
    rw [ht]
    intro heq
    have hb := (hhex b mem_cons_self).1
    rw [Option.some.inj heq] at hb
    revert hb
    decide

theorem numberText_low (num : APInt) (isSigned : Bool) :
    numberText (num.low isSigned) isSigned = numberText num isSigned := by
  cases isSigned with
  | false | true => simp [numberText, APInt.low]

theorem numberText_decodes (isSigned : Bool) :
    Decodes (fun num => numberText num isSigned) (fun num => num.bitWidth = 64) (fun _ => True) := by
  rintro ⟨_, bs⟩ ⟨_, bs'⟩ rest rest' rfl (rfl : _ = 64) _ _ heq
  cases isSigned with
  | false =>
    obtain ⟨hbts, hrs⟩ := absValueText_decodes bs.isLt bs'.isLt trivial trivial heq
    rw [BitVec.eq_of_toNat_eq hbts]
    exact ⟨rfl, hrs⟩
  | true =>
    simp only [numberText, BitVec.signExtend_eq] at heq
    cases hmsb : bs.msb <;> cases hmsb' : bs'.msb <;> rw [hmsb, hmsb'] at heq <;>
      simp only [if_true] at heq
    · obtain ⟨hbts, hrs⟩ := absValueText_decodes bs.isLt bs'.isLt trivial trivial heq
      rw [BitVec.eq_of_toNat_eq hbts]
      exact ⟨rfl, hrs⟩
    · exact absurd (congrArg head? heq) (absValueText_head bs.isLt rest)
    · exact absurd (congrArg head? heq).symm (absValueText_head bs'.isLt rest')
    · rw [cons_append, cons_append, cons.injEq] at heq
      obtain ⟨hbts, hrs⟩ := absValueText_decodes (-bs).isLt (-bs').isLt trivial trivial heq.2
      rw [BitVec.neg_inj.1 (BitVec.eq_of_toNat_eq hbts)]
      exact ⟨rfl, hrs⟩

end WithArgs.ManglerMsvc

end USprache.CodeBuilder
