import Mathlib.Data.Nat.Log
import USprache.Library.Decimal
import USprache.Ustlib.FloatParsing

/-!
# Long numbers

`toWords n V` are the words of `V`.  The loops over the words compute the words of the
product, of the shifted number and of the quotient, if there are enough words for them.
-/

namespace USprache.Ustlib.FloatParsing

open Library List Nat

def toWords : Nat → Nat → List Nat
  | 0, _ => []
  | n + 1, V => V % 2 ^ wordBits :: toWords n (V / 2 ^ wordBits)

@[simp] theorem length_toWords (n V : Nat) : (toWords n V).length = n := by
  induction n generalizing V with
  | zero => rfl
  | succ n ih => rw [toWords, length_cons, ih]

theorem toWords_zero (n : Nat) : toWords n 0 = replicate n 0 := by
  induction n with
  | zero => rfl
  | succ n ih => rw [toWords, zero_mod, Nat.zero_div, ih, replicate_succ]

variable {n V factor carry : Nat} {digits : List Nat} {dv : Nat}

theorem div_word_lt (h : V < 2 ^ (wordBits * (n + 1))) : V / 2 ^ wordBits < 2 ^ (wordBits * n) := by
  refine Nat.div_lt_of_lt_mul ?_
  rwa [← pow_add, add_comm]

theorem getElem?_toWords (n V i : Nat) :
    (toWords n V)[i]? = if i < n then some (V / 2 ^ (wordBits * i) % 2 ^ wordBits) else none := by
  induction n generalizing V i with
  | zero => simp
  | succ n ih =>
    cases i with
    | zero => simp [toWords]
    | succ i =>
      rw [toWords, getElem?_cons_succ, ih, Nat.div_div_eq_div_mul, ← pow_add]
      simp only [add_lt_add_iff_right, mul_succ, add_comm wordBits]

theorem getWord_toWords {i : Nat} (V : Nat) (hi : i < n) :
    getWord (toWords n V) i = .ok (V / 2 ^ (wordBits * i) % 2 ^ wordBits) := by
  rw [getWord, getElem?_toWords, if_pos hi]

theorem mulWord_lt {w : Nat} (hfac : factor < 2 ^ 32) (hwd : w < 2 ^ 32)
    (hcar : carry < 2 ^ 32) : w * factor + carry < 2 ^ 64 := by
  have hmul : w * factor ≤ (2 ^ 32 - 1) * (2 ^ 32 - 1) := Nat.mul_le_mul (by omega) (by omega)
  omega

theorem mul_add_div_word (V factor carry : Nat) : (V * factor + carry) / 2 ^ wordBits =
    V / 2 ^ wordBits * factor + (V % 2 ^ wordBits * factor + carry) / 2 ^ wordBits := by
  have hsp : V * factor + carry =
      2 ^ wordBits * (V / 2 ^ wordBits * factor) + (V % 2 ^ wordBits * factor + carry) := by
    conv_lhs => rw [← div_add_mod V (2 ^ wordBits)]
    ring
  rw [hsp, mul_add_div (Nat.two_pow_pos wordBits)]

theorem mulWords_toWords (hfac : factor < 2 ^ 32)
    (hV : V < 2 ^ (wordBits * n)) (hcar : carry < 2 ^ 32) :
    mulWords factor carry (toWords n V) =
      (toWords n (V * factor + carry), (V * factor + carry) / 2 ^ (wordBits * n)) := by
  induction n generalizing V carry with
  | zero =>
    obtain rfl : V = 0 := by simpa using hV
    simp [toWords, mulWords]
  | succ n ih =>
    have hwd : V % 2 ^ wordBits < 2 ^ 32 := mod_lt _ (Nat.two_pow_pos 32)
    have hlt : V % 2 ^ wordBits * factor + carry < 2 ^ 64 := mulWord_lt hfac hwd hcar
    have hcar' : (V % 2 ^ wordBits * factor + carry) / 2 ^ wordBits < 2 ^ 32 :=
      Nat.div_lt_of_lt_mul hlt
    have hlow : (V % 2 ^ wordBits * factor + carry) % 2 ^ wordBits =
        (V * factor + carry) % 2 ^ wordBits := by
      rw [add_mod, mod_mul_mod, ← add_mod]
    rw [toWords, mulWords, mulWord, mod_eq_of_lt hlt]
    simp only
    rw [ih (div_word_lt hV) hcar', ← mul_add_div_word, hlow, toWords, Nat.div_div_eq_div_mul,
      ← pow_add, add_comm wordBits, ← mul_succ]

theorem mulWordsChecked_toWords (hfac : factor < 2 ^ 32)
    (hV : V * factor + carry < 2 ^ (wordBits * n)) (hpos : 0 < factor) (hcar : carry < 2 ^ 32) :
    mulWordsChecked factor carry (toWords n V) = .ok (toWords n (V * factor + carry)) := by
  have hle : V ≤ V * factor := Nat.le_mul_of_pos_right V hpos
  rw [mulWordsChecked, mulWords_toWords hfac (by omega) hcar]
  simp only
  rw [if_pos (div_eq_of_lt hV)]

theorem mulTimes_toWords (hfac : factor < 2 ^ 32) (hpos : 0 < factor)
    {times : Nat} (hV : V * factor ^ times < 2 ^ (wordBits * n)) :
    mulTimes factor times (toWords n V) = .ok (toWords n (V * factor ^ times)) := by
  induction times generalizing V with
  | zero => rw [mulTimes, pow_zero, mul_one]
  | succ times ih =>
    rw [pow_succ', ← mul_assoc] at hV
    have hle : V * factor ≤ V * factor * factor ^ times :=
      Nat.le_mul_of_pos_right _ (Nat.pow_pos hpos)
    rw [mulTimes, mulWordsChecked_toWords hfac (by omega) hpos (by decide), pow_succ',
      ← mul_assoc]
    exact ih hV

variable (hds : ∀ d ∈ digits, d < 10)

include hds

theorem pushDigitsToWords_toWords
    (hV : Decimal.valueFrom V digits < 2 ^ (wordBits * n)) :
    pushDigitsToWords digits (toWords n V) = .ok (toWords n (Decimal.valueFrom V digits)) := by
  induction digits generalizing V with
  | nil => rfl
  | cons dig digits ih =>
    have hdigit : dig < 10 := hds dig mem_cons_self
    have hle : V * 10 + dig ≤ Decimal.valueFrom V (dig :: digits) :=
      Decimal.le_valueFrom (V * 10 + dig) digits
    rw [pushDigitsToWords, mulWordsChecked_toWords (by decide) (by omega) (by decide) (by omega)]
    exact ih (fun d hd => hds d (mem_cons_of_mem dig hd)) hV

theorem valueFrom_lt (v : Nat) :
    Decimal.valueFrom v digits < (v + 1) * 10 ^ digits.length := by
  induction digits generalizing v with
  | nil => simp
  | cons d digits ih =>
    have hd : d < 10 := hds d mem_cons_self
    calc Decimal.valueFrom v (d :: digits) < (v * 10 + d + 1) * 10 ^ digits.length :=
          ih (fun d' hd' => hds d' (mem_cons_of_mem d hd')) _
      _ ≤ ((v + 1) * 10) * 10 ^ digits.length := mul_le_mul_right _ (by omega)
      _ = (v + 1) * 10 ^ (d :: digits).length := by rw [length_cons]; ring

theorem foldl_significand64 {v : Nat}
    (hv : (v + 1) * 10 ^ digits.length ≤ 2 ^ 64) :
    digits.foldl (fun significand d => (significand * 10 % 2 ^ 64 + d) % 2 ^ 64) v =
      Decimal.valueFrom v digits := by
  induction digits generalizing v with
  | nil => rfl
  | cons d digits ih =>
    have hd : d < 10 := hds d mem_cons_self
    have hst : (v * 10 + d + 1) * 10 ^ digits.length ≤ 2 ^ 64 := by
      calc (v * 10 + d + 1) * 10 ^ digits.length
          ≤ ((v + 1) * 10) * 10 ^ digits.length := mul_le_mul_right _ (by omega)
        _ = (v + 1) * 10 ^ (d :: digits).length := by rw [length_cons]; ring
        _ ≤ 2 ^ 64 := hv
    have hlt : v * 10 + d + 1 ≤ 2 ^ 64 :=
      (Nat.le_mul_of_pos_right _ (Nat.pow_pos (by decide))).trans hst
    rw [foldl_cons, mod_eq_of_lt (by omega : v * 10 < 2 ^ 64), mod_eq_of_lt hlt]
    exact ih (fun d' hd' => hds d' (mem_cons_of_mem d hd')) hst

omit hds in
theorem toWords_two (n : Nat) (hV : V < 2 ^ 64) :
    toWords (n + 2) V = V % 2 ^ wordBits :: V / 2 ^ wordBits :: replicate n 0 := by
  have hhi : V / 2 ^ wordBits < 2 ^ wordBits := Nat.div_lt_of_lt_mul hV
  rw [toWords, toWords, mod_eq_of_lt hhi, div_eq_of_lt hhi, toWords_zero]

theorem convertSignificand_toWords
    (hn : 0 < n) (hV : Decimal.valueFrom 0 digits < 2 ^ (wordBits * n)) :
    convertSignificand digits n = .ok (toWords n (Decimal.valueFrom 0 digits)) := by
  rw [convertSignificand]
  split
  · next hlen =>
    have hpow : (0 + 1) * 10 ^ digits.length ≤ 2 ^ 64 := by
      rw [Nat.one_mul]
      exact (Nat.pow_le_pow_right (by decide) hlen).trans (by decide)
    have hlt : Decimal.valueFrom 0 digits < 2 ^ 64 := (valueFrom_lt hds 0).trans_le hpow
    rw [foldl_significand64 hds hpow]
    obtain rfl | ⟨m, rfl⟩ : n = 1 ∨ ∃ m, n = m + 2 := by
      by_cases h : n = 1
      · exact .inl h
      · exact .inr ⟨n - 2, by omega⟩
    · have hV' : Decimal.valueFrom 0 digits < 2 ^ wordBits := hV
      simp [setWord, toWords, div_eq_of_lt hV', bind, Except.bind]
    · rw [toWords_two m hlt]
      simp [setWord, replicate_succ, bind, Except.bind]
  · rw [← toWords_zero]
    exact pushDigitsToWords_toWords hds hV

omit hds

theorem shiftWords_toWords {sh : Nat} (hsh : sh < wordBits)
    (hV : V < 2 ^ (wordBits * n)) (hcar : carry < 2 ^ sh) :
    shiftWords sh carry (toWords n V) =
      (toWords n (V * 2 ^ sh + carry), (V * 2 ^ sh + carry) / 2 ^ (wordBits * n)) := by
  induction n generalizing V carry with
  | zero =>
    obtain rfl : V = 0 := by simpa using hV
    simp [toWords, shiftWords]
  | succ n ih =>
    have hwd : V % 2 ^ wordBits < 2 ^ wordBits := mod_lt _ (Nat.two_pow_pos wordBits)
    have hmul : V % 2 ^ wordBits * 2 ^ sh + carry < 2 ^ (wordBits + sh) := by
      rw [pow_add]
      have hle : (V % 2 ^ wordBits + 1) * 2 ^ sh ≤ 2 ^ wordBits * 2 ^ sh :=
        mul_le_mul_right _ hwd
      rw [add_mul] at hle
      omega
    have hlt : V % 2 ^ wordBits * 2 ^ sh < 2 ^ 64 := by
      have hle : 2 ^ (wordBits + sh) ≤ 2 ^ 64 :=
        Nat.pow_le_pow_right (by decide) (by simp only [wordBits] at *; omega)
      omega
    have hcar' : (V % 2 ^ wordBits * 2 ^ sh + carry) / 2 ^ wordBits < 2 ^ sh := by
      refine Nat.div_lt_of_lt_mul ?_
      rwa [← pow_add]
    have hlow : (V % 2 ^ wordBits * 2 ^ sh + carry) % 2 ^ wordBits =
        (V * 2 ^ sh + carry) % 2 ^ wordBits := by
      rw [add_mod, mod_mul_mod, ← add_mod]
    have hor : (V % 2 ^ wordBits) <<< sh % 2 ^ 64 ||| carry =
        V % 2 ^ wordBits * 2 ^ sh + carry := by
      rw [shiftLeft_eq, mod_eq_of_lt hlt, mul_comm, two_pow_add_eq_or_of_lt hcar]
    rw [toWords, shiftWords, hor]
    rw [ih (div_word_lt hV) hcar', ← mul_add_div_word, hlow, toWords, Nat.div_div_eq_div_mul,
      ← pow_add, add_comm wordBits, ← mul_succ]

theorem take_toWords {m : Nat} (h : m ≤ n) (V : Nat) : (toWords n V).take m = toWords m V := by
  induction m generalizing n V with
  | zero => rfl
  | succ m ih =>
    obtain ⟨n, rfl⟩ := Nat.exists_eq_add_of_lt (lt_of_lt_of_le (succ_pos m) h)
    rw [toWords, toWords, take_succ_cons, ih (by omega)]

theorem toWords_mul_word (k n V : Nat) :
    toWords (k + n) (V * 2 ^ (wordBits * k)) = replicate k 0 ++ toWords n V := by
  induction k with
  | zero => simp
  | succ k ih =>
    have hmul : V * 2 ^ (wordBits * (k + 1)) = V * 2 ^ (wordBits * k) * 2 ^ wordBits := by
      rw [mul_succ, pow_add, mul_assoc]
    rw [show k + 1 + n = k + n + 1 by omega, toWords, hmul, mul_mod_left,
      Nat.mul_div_cancel _ (Nat.two_pow_pos wordBits), ih, replicate_succ, cons_append]

theorem shiftWholeWords_toWords {k : Nat} (h : k ≤ n) (V : Nat) :
    shiftWholeWords k (toWords n V) = toWords n (V * 2 ^ (wordBits * k)) := by
  obtain ⟨m, rfl⟩ := Nat.exists_eq_add_of_le h
  rw [toWords_mul_word, shiftWholeWords, length_toWords, min_eq_left h, Nat.add_sub_cancel_left,
    take_toWords (by omega)]

theorem divHalf_eq {half remainder : Nat} (hdiv : dv ≤ 2 ^ 16)
    (hhalf : half < 2 ^ 16) (hrem : remainder < dv) :
    divHalf dv half remainder =
      ((remainder * 2 ^ 16 + half) / dv, (remainder * 2 ^ 16 + half) % dv) := by
  have hx : half + remainder <<< 16 = remainder * 2 ^ 16 + half := by
    rw [shiftLeft_eq, add_comm]
  have hlt : remainder * 2 ^ 16 + half < 2 ^ 32 := by omega
  have hquo : (remainder * 2 ^ 16 + half) / dv < 2 ^ 16 := by
    refine Nat.div_lt_of_lt_mul ?_
    omega
  rw [divHalf, hx, mod_eq_of_lt hlt, mod_eq_of_lt hquo]

theorem div_halves (dv remainder w : Nat) :
    let hi := remainder * 2 ^ 16 + w / 2 ^ 16
    let lo := hi % dv * 2 ^ 16 + w % 2 ^ 16
    remainder * 2 ^ 32 + w = (hi / dv * 2 ^ 16 + lo / dv) * dv + lo % dv := by
  intro hi lo
  have hhi : hi / dv * dv + hi % dv = hi := div_add_mod' hi dv
  have hlo : lo / dv * dv + lo % dv = lo := div_add_mod' lo dv
  calc remainder * 2 ^ 32 + w = hi * 2 ^ 16 + w % 2 ^ 16 := by omega
    _ = hi / dv * dv * 2 ^ 16 + lo := by
      conv_lhs => rw [← hhi]
      ring
    _ = (hi / dv * 2 ^ 16 + lo / dv) * dv + lo % dv := by
      conv_lhs => rw [← hlo]
      ring

theorem divMod_halves (hpos : 0 < dv) (high w : Nat) :
    let hi := high % dv * 2 ^ 16 + w / 2 ^ 16
    let lo := hi % dv * 2 ^ 16 + w % 2 ^ 16
    (high * 2 ^ 32 + w) / dv = high / dv * 2 ^ 32 + (hi / dv * 2 ^ 16 + lo / dv) ∧
      (high * 2 ^ 32 + w) % dv = lo % dv := by
  intro hi lo
  have hst : high % dv * 2 ^ 32 + w = (hi / dv * 2 ^ 16 + lo / dv) * dv + lo % dv :=
    div_halves dv (high % dv) w
  have hquo : high * 2 ^ 32 + w =
      lo % dv + (high / dv * 2 ^ 32 + (hi / dv * 2 ^ 16 + lo / dv)) * dv := by
    calc high * 2 ^ 32 + w = (high / dv * dv + high % dv) * 2 ^ 32 + w := by rw [div_add_mod']
      _ = high / dv * dv * 2 ^ 32 + (high % dv * 2 ^ 32 + w) := by ring
      _ = _ := by rw [hst]; ring
  have hlo : lo % dv < dv := mod_lt _ hpos
  constructor
  · rw [hquo, add_mul_div_right _ _ hpos, div_eq_of_lt hlo, zero_add]
  · rw [hquo, add_mul_mod_self_right, mod_mod]

theorem divWords_toWords (hpos : 0 < dv) (hdivisor : dv ≤ 2 ^ 16) (hV : V < 2 ^ (wordBits * n)) :
    divWords dv (toWords n V) = (toWords n (V / dv), V % dv) := by
  induction n generalizing V with
  | zero =>
    obtain rfl : V = 0 := by simpa using hV
    simp [toWords, divWords]
  | succ n ih =>
    obtain ⟨w, hwd⟩ : ∃ w, w = V % 2 ^ wordBits := ⟨_, rfl⟩
    obtain ⟨high, hhigh⟩ : ∃ high, high = V / 2 ^ wordBits := ⟨_, rfl⟩
    have hV' : V = high * 2 ^ 32 + w := by
      rw [hwd, hhigh]
      exact (div_add_mod' V (2 ^ 32)).symm
    have hwd_lt : w < 2 ^ 32 := by
      rw [hwd]
      exact mod_lt _ (Nat.two_pow_pos 32)
    have hrem : high % dv < dv := mod_lt _ hpos
    obtain ⟨hi, hhi⟩ : ∃ hi, hi = high % dv * 2 ^ 16 + w / 2 ^ 16 := ⟨_, rfl⟩
    obtain ⟨lo, hlo⟩ : ∃ lo, lo = hi % dv * 2 ^ 16 + w % 2 ^ 16 := ⟨_, rfl⟩
    have hlo_lt : lo / dv < 2 ^ 16 := by
      have hle : (hi % dv + 1) * 2 ^ 16 ≤ dv * 2 ^ 16 := mul_le_mul_right _ (mod_lt hi hpos)
      exact Nat.div_lt_of_lt_mul (by omega)
    have hhi_lt : hi / dv < 2 ^ 16 := by
      exact Nat.div_lt_of_lt_mul (by omega)
    obtain ⟨hdiv, hmod⟩ := divMod_halves hpos high w
    rw [← hV', ← hhi, ← hlo] at hdiv hmod
    have hhalf : w >>> 16 % 2 ^ 16 = w / 2 ^ 16 := by
      rw [shiftRight_eq_div_pow]
      exact mod_eq_of_lt (by omega)
    have hor : lo / dv ||| (hi / dv) <<< 16 = hi / dv * 2 ^ 16 + lo / dv := by
      rw [Nat.or_comm, shiftLeft_eq, mul_comm, two_pow_add_eq_or_of_lt hlo_lt]
    rw [toWords, divWords, ih (div_word_lt hV), ← hhigh, ← hwd]
    simp only
    rw [hhalf, divHalf_eq hdivisor (by omega) hrem, ← hhi]
    rw [divHalf_eq hdivisor (mod_lt _ (by decide)) (mod_lt _ hpos), ← hlo]
    have hlow : V / dv % 2 ^ wordBits = hi / dv * 2 ^ 16 + lo / dv := by
      rw [wordBits]
      omega
    have hrs : V / dv / 2 ^ wordBits = high / dv := by
      rw [wordBits]
      omega
    rw [hor, hmod, toWords, hlow, hrs]

theorem divTimes_toWords (hpos : 0 < dv) (hdiv : dv ≤ 2 ^ 16)
    {times : Nat} (hV : V < 2 ^ (wordBits * n)) (hasRemainder : Bool) :
    divTimes dv times (toWords n V) hasRemainder =
      (toWords n (V / dv ^ times), hasRemainder || decide (V % dv ^ times ≠ 0)) := by
  induction times generalizing V hasRemainder with
  | zero => simp [divTimes, mod_one]
  | succ times ih =>
    rw [divTimes, divWords_toWords hpos hdiv hV]
    simp only
    rw [ih (lt_of_le_of_lt (div_le_self V dv) hV), Nat.div_div_eq_div_mul,
      ← pow_succ', Bool.or_assoc]
    have hmod : V % dv ^ (times + 1) = V % dv + dv * (V / dv % dv ^ times) := by
      rw [pow_succ', mod_mul]
    have hiff : V % dv ^ (times + 1) ≠ 0 ↔ V % dv ≠ 0 ∨ V / dv % dv ^ times ≠ 0 := by
      rw [hmod, Ne, Nat.add_eq_zero_iff, mul_eq_zero]
      omega
    simp only [hiff, Bool.decide_or]

theorem scaleWords_of_nonneg {S : Nat} (ex : Nat) (hexponent : ex < 2 ^ 32)
    (hS : S * 5 ^ ex < 2 ^ (wordBits * n)) (shs : Nat) :
    scaleWords ex shs (toWords n S) = .ok (toWords n (S * 5 ^ ex), false) := by
  have hun : toUnsigned 32 (ex : Int) = ex := by
    rw [toUnsigned]
    omega
  have hsp : 5 ^ ex = 1220703125 ^ (ex / 13) * 5 ^ (ex % 13) := by
    rw [show 1220703125 = 5 ^ 13 by decide, ← pow_mul, ← pow_add, div_add_mod]
  rw [hsp, ← mul_assoc] at hS ⊢
  have hle : S * 1220703125 ^ (ex / 13) ≤ S * 1220703125 ^ (ex / 13) * 5 ^ (ex % 13) :=
    Nat.le_mul_of_pos_right _ (Nat.pow_pos (by decide))
  rw [scaleWords, if_pos (Int.natCast_nonneg ex), hun]
  simp only
  rw [mulTimes_toWords (by decide) (by decide) (by omega)]
  simp only [bind, Except.bind]
  split
  · have hfac : 5 ^ (ex % 13) < 2 ^ 32 := by
      have hmod : ex % 13 ≤ 12 := by omega
      exact (Nat.pow_le_pow_right (by decide) hmod).trans_lt (by decide)
    rw [mulWordsChecked_toWords hfac hS (Nat.pow_pos (by decide)) (by decide), add_zero]
  · next hz =>
    rw [show ex % 13 = 0 by omega, pow_zero, mul_one]

theorem scaleWords_of_neg {S : Nat} (k : Nat) (hk : 0 < k) (hk' : k < 2 ^ 32) (shs : Nat)
    (hS : S * 2 ^ shs < 2 ^ (wordBits * n)) (hpos : 0 < S) :
    scaleWords (-k) shs (toWords n S) =
      .ok (toWords n (S * 2 ^ shs / 5 ^ k), decide (S * 2 ^ shs % 5 ^ k ≠ 0)) := by
  have hun : toUnsigned 32 (- -(k : Int)) = k := by
    rw [toUnsigned]
    omega
  have hsp : 2 ^ shs = 2 ^ (wordBits * (shs / wordBits)) * 2 ^ (shs % wordBits) := by
    rw [← pow_add, div_add_mod]
  have hfive : 5 ^ k = 15625 ^ (k / 6) * 5 ^ (k % 6) := by
    rw [show 15625 = 5 ^ 6 by decide, ← pow_mul, ← pow_add, div_add_mod]
  have hwho : S * 2 ^ (wordBits * (shs / wordBits)) < 2 ^ (wordBits * n) := by
    refine lt_of_le_of_lt (mul_le_mul_left S ?_) hS
    rw [hsp]
    exact Nat.le_mul_of_pos_right _ (Nat.two_pow_pos _)
  have hws : shs / wordBits ≤ n := by
    have hlt : 2 ^ (wordBits * (shs / wordBits)) < 2 ^ (wordBits * n) :=
      lt_of_le_of_lt (Nat.le_mul_of_pos_left _ hpos) hwho
    have hlt' := (Nat.pow_lt_pow_iff_right (by decide)).1 hlt
    exact le_of_mul_le_mul_left hlt'.le (by decide)
  rw [scaleWords, if_neg (by omega), hun, shiftWholeWords_toWords hws]
  simp only
  rw [shiftWords_toWords (mod_lt _ (by decide)) hwho (Nat.two_pow_pos _), add_zero,
    mul_assoc, ← hsp]
  simp only
  rw [if_neg (by rw [div_eq_of_lt hS]; decide), divTimes_toWords (by decide) (by decide) hS]
  rw [divTimes_toWords (by decide) (by decide)
      (lt_of_le_of_lt (div_le_self _ _) hS), Nat.div_div_eq_div_mul, ← hfive, Bool.false_or]
  have hmod : S * 2 ^ shs % 5 ^ k = S * 2 ^ shs % 15625 ^ (k / 6) +
      15625 ^ (k / 6) * (S * 2 ^ shs / 15625 ^ (k / 6) % 5 ^ (k % 6)) := by
    rw [hfive, mod_mul]
  have hiff : S * 2 ^ shs % 5 ^ k ≠ 0 ↔ S * 2 ^ shs % 15625 ^ (k / 6) ≠ 0 ∨
      S * 2 ^ shs / 15625 ^ (k / 6) % 5 ^ (k % 6) ≠ 0 := by
    rw [hmod, Ne, Nat.add_eq_zero_iff, mul_eq_zero]
    omega
  simp only [hiff, Bool.decide_or]

end USprache.Ustlib.FloatParsing
