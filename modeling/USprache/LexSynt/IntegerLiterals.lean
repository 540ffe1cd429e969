import Mathlib.Data.List.Basic
import Mathlib.Data.Nat.Digits.Defs
import USprache.LexSynt.SyntaxAnalyzer

/-!
# Values of integer literals

The four words of a literal hold the value of the digits that were read.  A carry that is left
behind the last word is a value that has no place in them.
-/

namespace USprache.LexSynt

open List Nat

def wordsValue : List Nat → Nat
  | [] => 0
  | word :: words => word + 2 ^ 32 * wordsValue words

def AreWords (words : List Nat) : Prop := ∀ word ∈ words, word < 2 ^ 32

variable {base : Nat} {words digits : List Nat}

theorem wordsValue_lt (h : AreWords words) : wordsValue words < 2 ^ (32 * words.length) := by
  induction words with
  | nil => exact one_pos
  | cons word words ih =>
    obtain ⟨hword, h⟩ := forall_mem_cons.1 h
    have hlt := ih h
    have hpow : 2 ^ (32 * (words.length + 1)) = 2 ^ 32 * 2 ^ (32 * words.length) := by
      rw [mul_add, pow_add, mul_comm]
    rw [length_cons, wordsValue]
    omega

/-- Neither the 64-bit product nor the 32-bit carry wraps. -/
theorem digit_step_lt {word carry : Nat} (hbase : base ≤ 16) (hword : word < 2 ^ 32)
    (hcarry : carry < 2 ^ 32) :
    word * base + carry < 2 ^ 64 ∧ (word * base + carry) / 2 ^ 32 < 2 ^ 32 := by
  have hmul : word * base ≤ (2 ^ 32 - 1) * 16 := Nat.mul_le_mul (by omega) hbase
  omega

theorem pushDigit_spec {carry : Nat} (hbase : base ≤ 16) (h : AreWords words)
    (hcarry : carry < 2 ^ 32) :
    (pushDigit base words carry).1.length = words.length ∧ AreWords (pushDigit base words carry).1 ∧
      wordsValue (pushDigit base words carry).1 +
        2 ^ (32 * words.length) * (pushDigit base words carry).2 = wordsValue words * base + carry := by
  induction words generalizing carry with
  | nil => simp [pushDigit, wordsValue, AreWords]
  | cons word words ih =>
    obtain ⟨hword, h⟩ := forall_mem_cons.1 h
    obtain ⟨hlen, hwords, heq⟩ := ih h (digit_step_lt hbase hword hcarry).2
    have hpow : 2 ^ (32 * (words.length + 1)) = 2 ^ 32 * 2 ^ (32 * words.length) := by
      rw [mul_add, pow_add, mul_comm]
    refine ⟨congrArg (· + 1) hlen, forall_mem_cons.2 ⟨mod_lt _ (Nat.two_pow_pos 32), hwords⟩, ?_⟩
    rw [length_cons, hpow]
    calc (word * base + carry) % 2 ^ 32 +
            2 ^ 32 * wordsValue (pushDigit base words ((word * base + carry) / 2 ^ 32)).1 +
            2 ^ 32 * 2 ^ (32 * words.length) * (pushDigit base words ((word * base + carry) / 2 ^ 32)).2
        = (word * base + carry) % 2 ^ 32 +
            2 ^ 32 * (wordsValue words * base + (word * base + carry) / 2 ^ 32) := by
          rw [← heq]
          ring
      _ = word * base + carry + 2 ^ 32 * (wordsValue words * base) := by
          omega
      _ = (word + 2 ^ 32 * wordsValue words) * base + carry := by ring

theorem decodeDigits_spec {s : Text} (hbase : base ≤ 16) (hpos : 0 < base) (h : AreWords words)
    (hs : s.map (tryParseDigit base) = digits.map some) (hdigits : ∀ d ∈ digits, d < base) :
    if wordsValue words * base ^ digits.length + ofDigits base digits.reverse < 2 ^ (32 * words.length) then
      ∃ words', decodeDigits base words s = some words' ∧ words'.length = words.length ∧ AreWords words' ∧
        wordsValue words' = wordsValue words * base ^ digits.length + ofDigits base digits.reverse
    else decodeDigits base words s = none := by
  induction digits generalizing s words with
  | nil =>
    obtain rfl : s = [] := map_eq_nil_iff.1 hs
    have heq : wordsValue words * base ^ 0 + ofDigits base [] = wordsValue words := by simp
    rw [length_nil, reverse_nil, heq, if_pos (wordsValue_lt h)]
    exact ⟨words, rfl, rfl, h, rfl⟩
  | cons digit digits ih =>
    obtain ⟨c, s, rfl, hc, hs⟩ := map_eq_cons_iff.1 hs
    obtain ⟨hdigit, hdigits⟩ := forall_mem_cons.1 hdigits
    obtain ⟨hlen, hwords, hval⟩ := pushDigit_spec hbase h (show digit < 2 ^ 32 by omega)
    have heq : wordsValue words * base ^ (digit :: digits).length + ofDigits base (digit :: digits).reverse =
        (wordsValue words * base + digit) * base ^ digits.length + ofDigits base digits.reverse := by
      rw [reverse_cons, ofDigits_append, ofDigits_singleton, length_reverse, length_cons]
      ring
    rw [heq, ← hval, decodeDigits, hc]
    dsimp only
    cases hpush : pushDigit base words digit with
    | mk words' carry =>
      rw [hpush] at hlen hwords
      dsimp only at hlen hwords ⊢
      cases carry with
      | zero =>
        rw [← hlen]
        exact ih hwords hs hdigits
      | succ carry =>
        have hle : 2 ^ (32 * words.length) ≤ 2 ^ (32 * words.length) * (carry + 1) * base ^ digits.length := by
          rw [mul_assoc]
          exact Nat.le_mul_of_pos_right _ (mul_pos (succ_pos carry) (Nat.pow_pos hpos))
        rw [add_mul, if_neg (by omega)]

theorem tryParseDigit_lt {c : UInt8} {digit : Nat} (h : tryParseDigit base c = some digit) :
    digit < base := by
  exact of_decide_eq_true (Option.filter_eq_some_iff.1 h).2

/-- The digits of a literal, of any number, are decoded to their value, unless it needs more than 128
bits. -/
theorem decodeParsedInteger_exact (base : Nat) (hbase : base ∈ [2, 8, 10, 16]) (s : Text)
    (digits : List Nat)
    (hs : s.map (tryParseDigit base) = digits.map some) :
    decodeParsedInteger base s =
      if ofDigits base digits.reverse < 2 ^ 128 then
        some ⟨ofDigits base digits.reverse % 2 ^ 64, ofDigits base digits.reverse / 2 ^ 64⟩
      else none := by
  have hbounds : 0 < base ∧ base ≤ 16 := by
    simp only [mem_cons, not_mem_nil, or_false] at hbase
    omega
  have hdigits : ∀ d ∈ digits, d < base := by
    intro d hd
    obtain ⟨c, -, hc⟩ := mem_map.1 (hs ▸ mem_map_of_mem hd)
    exact tryParseDigit_lt hc
  have hzero : AreWords [0, 0, 0, 0] := by simp [AreWords]
  have hspec := decodeDigits_spec hbounds.2 hbounds.1 hzero hs hdigits
  rw [show wordsValue [0, 0, 0, 0] = 0 from rfl, zero_mul, zero_add] at hspec
  rw [decodeParsedInteger]
  split_ifs at hspec ⊢ with hlt hlt' hlt'
  · obtain ⟨words, hsome, hlen, hwords, hval⟩ := hspec
    obtain ⟨w0, w1, w2, w3, rfl⟩ := length_eq_four.1 hlen
    rw [hsome, ← hval]
    have hlow : ∀ w ∈ [w0, w1, w2, w3], w < 2 ^ 32 := hwords
    simp only [mem_cons, forall_eq_or_imp] at hlow
    simp only [wordsValue, Option.some.injEq, Int128.mk.injEq]
    omega
  · exact absurd hlt hlt'
  · exact absurd hlt' hlt
  · rw [hspec]

theorem decodeParsedInteger_padded : decodeParsedInteger 16 (asciiText "00fF") = some ⟨255, 0⟩ :=
  (decodeParsedInteger_exact 16 (by decide) (asciiText "00fF") [0, 0, 15, 15] (by decide)).trans (by decide)

end USprache.LexSynt
