import USprache.Library.Decimal
import USprache.Ustlib.IntegerText

/-!
# Numerals

The numerals of the form `-?(0|[1-9][0-9]*)`, their values, and the longest one that a
text starts with.
-/

namespace USprache.Ustlib.NumberParsing

open CharType Library List

variable {C : Type} [CharType C]

def digitOf (c : C) : Nat := toNat c - zeroChar

def decimalValue (text : List C) : Nat := Decimal.valueFrom 0 (text.map digitOf)

/-- `0|[1-9][0-9]*` -/
def IsDecimal : List C → Prop
  | [] => False
  | c :: text =>
    (toNat c = zeroChar ∧ text = []) ∨
      (isDigit c = true ∧ toNat c ≠ zeroChar ∧ ∀ c' ∈ text, isDigit c' = true)

/-- `-?(0|[1-9][0-9]*)`, the minus sign only for signed types. -/
def IsNumeral (signed : Bool) : List C → Prop
  | [] => False
  | c :: text => IsDecimal (c :: text) ∨ (signed = true ∧ toNat c = minusChar ∧ IsDecimal text)

def numeralValue : List C → Int
  | [] => 0
  | c :: text => if toNat c = minusChar then -decimalValue text else decimalValue (c :: text)

def IsMaximalNumeral (signed : Bool) (numeral text : List C) : Prop :=
  numeral <+: text ∧ IsNumeral signed numeral ∧
    ∀ other, other <+: text → IsNumeral signed other → other.length ≤ numeral.length

/-- The longest decimal number that the text starts with, and the rest. -/
def splitDecimal : List C → Option (List C × List C)
  | [] => none
  | c :: text =>
    if toNat c = zeroChar then some ([c], text)
    else if isDigit c then some (c :: text.takeWhile isDigit, text.dropWhile isDigit)
    else none

theorem isDigit_iff {c : C} : isDigit c = true ↔ zeroChar ≤ toNat c ∧ toNat c ≤ nineChar := by
  simp [isDigit]

variable {text : List C} {signed : Bool}

theorem splitDecimal_append {num r : List C} (h : splitDecimal text = some (num, r)) :
    text = num ++ r ∧ IsDecimal num := by
  cases text with
  | nil => cases h
  | cons c text =>
    rw [splitDecimal] at h
    split at h
    · next hz =>
      cases h
      exact ⟨rfl, .inl ⟨hz, rfl⟩⟩
    split at h
    · next hz hd =>
      cases h
      refine ⟨by rw [cons_append, takeWhile_append_dropWhile], .inr ⟨hd, hz, ?_⟩⟩
      exact all_eq_true.1 all_takeWhile
    · cases h

theorem length_le_takeWhile {ds : List C} (h : ds <+: text)
    (hds : ∀ c ∈ ds, isDigit c = true) : ds.length ≤ (text.takeWhile isDigit).length := by
  obtain ⟨rest, rfl⟩ := h
  rw [takeWhile_append_of_pos hds, length_append]
  exact Nat.le_add_right _ _

theorem splitDecimal_maximal {other : List C} (hst : other <+: text) (ho : IsDecimal other) :
    ∃ num r, splitDecimal text = some (num, r) ∧ other.length ≤ num.length := by
  cases other with
  | nil => exact absurd ho id
  | cons c other =>
    cases text with
    | nil => exact absurd hst (by simp)
    | cons c' text =>
      obtain ⟨rfl, htl⟩ := cons_prefix_cons.1 hst
      rcases ho with ⟨hz, rfl⟩ | ⟨hd, hz, hds⟩
      · exact ⟨[c], text, by rw [splitDecimal, if_pos hz], Nat.le_refl _⟩
      · refine ⟨_, _, by rw [splitDecimal, if_neg hz, if_pos hd], ?_⟩
        exact Nat.succ_le_succ (length_le_takeWhile htl hds)

/-- The longest numeral that the text starts with, and the rest. -/
def splitNumeral (signed : Bool) : List C → Option (List C × List C)
  | [] => none
  | c :: text =>
    if signed = true ∧ toNat c = minusChar then
      (splitDecimal text).map fun split => (c :: split.1, split.2)
    else splitDecimal (c :: text)

theorem not_isDecimal_minus {c : C} (hc : toNat c = minusChar) (text : List C) :
    ¬IsDecimal (c :: text) := by
  rintro (⟨hz, -⟩ | ⟨hd, -⟩)
  · rw [hc] at hz
    exact absurd hz (by decide)
  · rw [isDigit_iff, hc] at hd
    exact absurd hd.1 (by decide)

theorem splitNumeral_maximal {other : List C} (hst : other <+: text) (ho : IsNumeral signed other) :
    ∃ numeral r, splitNumeral signed text = some (numeral, r) ∧ other.length ≤ numeral.length := by
  cases other with
  | nil => exact absurd ho id
  | cons c other =>
    cases text with
    | nil => exact absurd hst (by simp)
    | cons c' text =>
      obtain ⟨rfl, htl⟩ := cons_prefix_cons.1 hst
      rw [splitNumeral]
      by_cases hmi : signed = true ∧ toNat c = minusChar
      · rw [if_pos hmi]
        have hdec : IsDecimal other := by
          rcases ho with hdec | ⟨-, -, hdec⟩
          · exact absurd hdec (not_isDecimal_minus hmi.2 _)
          · exact hdec
        obtain ⟨num, r, hsp, hlen⟩ := splitDecimal_maximal htl hdec
        exact ⟨c :: num, r, by rw [hsp]; rfl, Nat.succ_le_succ hlen⟩
      · rw [if_neg hmi]
        have hdec : IsDecimal (c :: other) := by
          rcases ho with hdec | ⟨hsg, hc, -⟩
          · exact hdec
          · exact absurd ⟨hsg, hc⟩ hmi
        exact splitDecimal_maximal hst hdec

theorem splitNumeral_append {numeral r : List C}
    (h : splitNumeral signed text = some (numeral, r)) :
    text = numeral ++ r ∧ IsNumeral signed numeral := by
  cases text with
  | nil => cases h
  | cons c text =>
    rw [splitNumeral] at h
    split at h
    · next hmi =>
      obtain ⟨⟨number, rest'⟩, hsp, heq⟩ := Option.map_eq_some_iff.1 h
      cases heq
      obtain ⟨rfl, hdec⟩ := splitDecimal_append hsp
      exact ⟨rfl, .inr ⟨hmi.1, hmi.2, hdec⟩⟩
    · obtain ⟨ht, hdec⟩ := splitDecimal_append h
      refine ⟨ht, ?_⟩
      cases numeral with
      | nil => exact absurd hdec id
      | cons c numeral => exact .inl hdec

theorem isMaximalNumeral_iff {numeral : List C} :
    IsMaximalNumeral signed numeral text ↔ ∃ r, splitNumeral signed text = some (numeral, r) := by
  constructor
  · rintro ⟨hst, hnum, hmax⟩
    obtain ⟨longest, r, hsp, hlen⟩ := splitNumeral_maximal hst hnum
    obtain ⟨ht, hlon⟩ := splitNumeral_append hsp
    have hlon' : longest <+: text := ⟨r, ht.symm⟩
    have heq : numeral = longest := by
      refine (prefix_of_prefix_length_le hst hlon' hlen).eq_of_length ?_
      exact Nat.le_antisymm hlen (hmax longest hlon' hlon)
    exact ⟨r, heq ▸ hsp⟩
  · rintro ⟨r, hsp⟩
    obtain ⟨ht, hnum⟩ := splitNumeral_append hsp
    refine ⟨⟨r, ht.symm⟩, hnum, fun other hst ho => ?_⟩
    obtain ⟨longest, rest', hsp', hlen⟩ := splitNumeral_maximal hst ho
    rw [hsp] at hsp'
    cases hsp'
    exact hlen

end USprache.Ustlib.NumberParsing
