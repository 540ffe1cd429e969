import USprache.LexSynt.ProgramString

/-!
# Encoded text

Text that is the UTF-8 encoding of a list of characters.  On such text the reader
of the compiler decodes what was encoded, and every position behind an ASCII byte
is a position between characters.
-/

namespace USprache.LexSynt

open List Nat

def encode (chars : List Char) : Text := chars.flatMap String.utf8EncodeChar

@[simp] theorem encode_nil : encode [] = [] := rfl

variable (c : Char)

theorem encode_cons (chars : List Char) :
    encode (c :: chars) = String.utf8EncodeChar c ++ encode chars := rfl

theorem encode_append (cs1 cs2 : List Char) : encode (cs1 ++ cs2) = encode cs1 ++ encode cs2 :=
  flatMap_append

theorem shiftLeft_or (a b n : Nat) (h : b < 2 ^ n) : (a <<< n) ||| b = a * 2 ^ n + b := by
  rw [← shiftLeft_add_eq_or_of_lt h, shiftLeft_eq]

theorem shiftLeft_or_shiftLeft (a b m n : Nat) (h : b < 2 ^ m) :
    (a <<< (m + n)) ||| (b <<< n) = (a * 2 ^ m + b) <<< n := by
  rw [shiftLeft_add, ← shiftLeft_or_distrib, shiftLeft_or a b m h]

theorem byte_of_lt {n : Nat} (h : n < 256) : (UInt8.ofNat n).toNat = n := by
  exact mod_eq_of_lt h

variable {b0 b1 : UInt8} {chars : List Char} {b : UInt8} {t : Text}

theorem readNextUTF8Char_two (s : Text) (h0 : 0x80 ≤ b0.toNat) (h1 : b0.toNat < 0xE0) :
    readNextUTF8Char (b0 :: b1 :: s) = (b0.toNat % 32 * 64 + b1.toNat % 64, s) := by
  refine (if_neg (show ¬b0.toNat < 0x80 by omega)).trans
    ((if_pos h1).trans ((if_neg (show ¬s.length + 2 < 2 by omega)).trans ?_))
  rw [and_bitMask, and_bitMask, shiftLeft_or _ _ _ (mod_lt _ (by decide))]
  rfl

theorem readNextUTF8Char_three {b2 : UInt8} (s : Text) (h0 : 0xE0 ≤ b0.toNat)
    (h1 : b0.toNat < 0xF0) :
    readNextUTF8Char (b0 :: b1 :: b2 :: s) =
      (b0.toNat % 16 * 4096 + b1.toNat % 64 * 64 + b2.toNat % 64, s) := by
  refine (if_neg (show ¬b0.toNat < 0x80 by omega)).trans
    ((if_neg (show ¬b0.toNat < 0xE0 by omega)).trans ((if_pos h1).trans
      ((if_neg (show ¬s.length + 3 < 3 by omega)).trans ?_)))
  rw [and_bitMask, and_bitMask, and_bitMask, shiftLeft_or_shiftLeft _ _ 6 6 (mod_lt _ (by decide)),
    shiftLeft_or _ _ 6 (mod_lt _ (by decide))]
  refine Prod.ext ?_ rfl
  show (b0.toNat % 16 * 64 + b1.toNat % 64) * 64 + b2.toNat % 64 = _
  omega

theorem readNextUTF8Char_four {b2 b3 : UInt8} (s : Text) (h0 : 0xF0 ≤ b0.toNat)
    (h1 : b0.toNat < 0xF8) :
    readNextUTF8Char (b0 :: b1 :: b2 :: b3 :: s) =
      (b0.toNat % 8 * 262144 + b1.toNat % 64 * 4096 + b2.toNat % 64 * 64 + b3.toNat % 64, s) := by
  refine (if_neg (show ¬b0.toNat < 0x80 by omega)).trans
    ((if_neg (show ¬b0.toNat < 0xE0 by omega)).trans
      ((if_neg (show ¬b0.toNat < 0xF0 by omega)).trans ((if_pos h1).trans
        ((if_neg (show ¬s.length + 4 < 4 by omega)).trans ?_))))
  rw [and_bitMask, and_bitMask, and_bitMask, and_bitMask,
    shiftLeft_or_shiftLeft _ _ 6 12 (mod_lt _ (by decide)),
    shiftLeft_or_shiftLeft _ _ 6 6 (mod_lt _ (by decide)),
    shiftLeft_or _ _ 6 (mod_lt _ (by decide))]
  refine Prod.ext ?_ rfl
  show ((b0.toNat % 8 * 64 + b1.toNat % 64) * 64 + b2.toNat % 64) * 64 + b3.toNat % 64 = _
  omega

def codePointBytes (v : Nat) : Text :=
  if v ≤ 0x7F then [UInt8.ofNat v]
  else if v ≤ 0x7FF then [UInt8.ofNat (v / 64 % 0x20 + 0xC0), UInt8.ofNat (v % 0x40 + 0x80)]
  else if v ≤ 0xFFFF then
    [UInt8.ofNat (v / 4096 % 0x10 + 0xE0), UInt8.ofNat (v / 64 % 0x40 + 0x80),
      UInt8.ofNat (v % 0x40 + 0x80)]
  else
    [UInt8.ofNat (v / 262144 % 0x08 + 0xF0), UInt8.ofNat (v / 4096 % 0x40 + 0x80),
      UInt8.ofNat (v / 64 % 0x40 + 0x80), UInt8.ofNat (v % 0x40 + 0x80)]

theorem readNextUTF8Char_codePointBytes {v : Nat} (hmax : v ≤ 0x10FFFF) (s : Text) :
    readNextUTF8Char (codePointBytes v ++ s) = (v, s) := by
  unfold codePointBytes
  split
  · have hb : (UInt8.ofNat v).toNat = v := byte_of_lt (by omega)
    rw [singleton_append, readNextUTF8Char_ascii (by omega), hb]
  split
  · have hb0 := byte_of_lt (show v / 64 % 0x20 + 0xC0 < 256 by omega)
    have hb1 := byte_of_lt (show v % 0x40 + 0x80 < 256 by omega)
    show readNextUTF8Char (_ :: _ :: s) = _
    rw [readNextUTF8Char_two _ (by omega) (by omega)]
    exact congrArg (·, s) (by omega)
  split
  · have hb0 := byte_of_lt (show v / 4096 % 0x10 + 0xE0 < 256 by omega)
    have hb1 := byte_of_lt (show v / 64 % 0x40 + 0x80 < 256 by omega)
    have hb2 := byte_of_lt (show v % 0x40 + 0x80 < 256 by omega)
    show readNextUTF8Char (_ :: _ :: _ :: s) = _
    rw [readNextUTF8Char_three _ (by omega) (by omega)]
    exact congrArg (·, s) (by omega)
  · have hb0 := byte_of_lt (show v / 262144 % 0x08 + 0xF0 < 256 by omega)
    have hb1 := byte_of_lt (show v / 4096 % 0x40 + 0x80 < 256 by omega)
    have hb2 := byte_of_lt (show v / 64 % 0x40 + 0x80 < 256 by omega)
    have hb3 := byte_of_lt (show v % 0x40 + 0x80 < 256 by omega)
    show readNextUTF8Char (_ :: _ :: _ :: _ :: s) = _
    rw [readNextUTF8Char_four _ (by omega) (by omega)]
    exact congrArg (·, s) (by omega)

/-- The source writes the same bytes with shifts and masks. -/
theorem pushCharToUTF8String_eq {v : Nat} (hmax : v ≤ 0x10FFFF) (str : Text) :
    pushCharToUTF8String v str = str ++ codePointBytes v := by
  have hld : ∀ k n x, x < 2 ^ n → (k <<< n) ||| x = x % 2 ^ n + k * 2 ^ n := by
    intro k n x hx
    rw [mod_eq_of_lt hx, shiftLeft_or k x n hx, add_comm]
  have hand : ∀ n, 0b10000000 ||| (n &&& 63) = n % 0x40 + 0x80 := by
    intro n
    rw [and_two_pow_sub_one_eq_mod n 6]
    have hmod := hld 2 6 (n % 2 ^ 6) (mod_lt _ (by decide))
    rw [mod_mod] at hmod
    exact hmod
  unfold pushCharToUTF8String codePointBytes
  simp only [hand, shiftRight_eq_div_pow, hmax]
  split
  · rfl
  split
  · rw [show 0b11000000 ||| v / 64 = v / 64 % 0x20 + 0xC0 from
      hld 6 5 _ (by omega)]
  split
  · rw [show 0b11100000 ||| v / 4096 = v / 4096 % 0x10 + 0xE0 from
      hld 14 4 _ (by omega)]
  · rw [if_pos trivial, show 0b11110000 ||| v / 262144 = v / 262144 % 0x08 + 0xF0 from
      hld 30 3 _ (by omega)]

theorem toNat_le_max : c.toNat ≤ 0x10FFFF := by
  have hok := c.valid
  show c.val.toNat ≤ _
  omega

theorem readNextUTF8Char_encode (chars : List Char) :
    readNextUTF8Char (encode (c :: chars)) = (c.toNat, encode chars) :=
  readNextUTF8Char_codePointBytes (toNat_le_max c) _

/-- An ASCII character is one byte; every other one has a leading byte and
continuation bytes. -/
theorem utf8EncodeChar_bytes : (∃ b, String.utf8EncodeChar c = [b] ∧ b.toNat < 0x80) ∨
    ∃ b tail, String.utf8EncodeChar c = b :: tail ∧ 0xC0 ≤ b.toNat ∧
      ∀ x ∈ tail, 0x80 ≤ x.toNat ∧ x.toNat < 0xC0 := by
  have hcont : ∀ n, 0x80 ≤ (UInt8.ofNat (n % 0x40 + 0x80)).toNat ∧
      (UInt8.ofNat (n % 0x40 + 0x80)).toNat < 0xC0 := by
    intro n
    rw [byte_of_lt (by omega)]
    omega
  unfold String.utf8EncodeChar
  simp only
  split
  · exact .inl ⟨_, rfl, by rw [byte_of_lt (by omega)]; omega⟩
  split
  · refine .inr ⟨_, _, rfl, by rw [byte_of_lt (by omega)]; omega, ?_⟩
    simp only [mem_singleton, forall_eq]
    exact hcont _
  split
  · refine .inr ⟨_, _, rfl, by rw [byte_of_lt (by omega)]; omega, ?_⟩
    simp only [mem_cons, not_mem_nil, or_false, forall_eq_or_imp, forall_eq]
    exact ⟨hcont _, hcont _⟩
  · refine .inr ⟨_, _, rfl, by rw [byte_of_lt (by omega)]; omega, ?_⟩
    simp only [mem_cons, not_mem_nil, or_false, forall_eq_or_imp, forall_eq]
    exact ⟨hcont _, hcont _, hcont _⟩

theorem encode_ne_nil (chars : List Char) : encode (c :: chars) ≠ [] := by
  exact append_ne_nil_of_left_ne_nil String.utf8EncodeChar_ne_nil _

@[simp] theorem encode_eq_nil_iff : encode chars = [] ↔ chars = [] := by
  cases chars with
  | nil => simp
  | cons c chars => simp [encode_ne_nil]

theorem encode_injective {cs1 cs2 : List Char} (h : encode cs1 = encode cs2) : cs1 = cs2 := by
  induction cs1 generalizing cs2 with
  | nil => exact (encode_eq_nil_iff.1 h.symm).symm
  | cons c cs1 ih =>
    cases cs2 with
    | nil => exact absurd h (encode_ne_nil c cs1)
    | cons d cs2 =>
      have hrd := congrArg readNextUTF8Char h
      rw [readNextUTF8Char_encode, readNextUTF8Char_encode, Prod.mk.injEq] at hrd
      rw [Char.toNat_inj.1 hrd.1, ih hrd.2]

theorem encode_cons_ascii {c : Char} (h : c.toNat < 0x80) (chars : List Char) :
    encode (c :: chars) = UInt8.ofNat c.toNat :: encode chars := by
  rw [encode_cons]
  unfold String.utf8EncodeChar
  rw [if_pos (show c.val.toNat ≤ 0x7F from le_of_lt_succ h)]
  rfl

theorem encode_eq_cons_ascii (h : encode chars = b :: t) (hb : b.toNat < 0x80) :
    ∃ c cs', chars = c :: cs' ∧ c.toNat = b.toNat ∧ t = encode cs' := by
  cases chars with
  | nil => cases h
  | cons c chars =>
    have hrd := readNextUTF8Char_encode c chars
    rw [h, readNextUTF8Char_ascii hb, Prod.mk.injEq] at hrd
    exact ⟨c, chars, rfl, hrd.1.symm, hrd.2⟩

theorem encode_head (h : encode chars = b :: t) : b.toNat < 0x80 ∨ 0xC0 ≤ b.toNat := by
  cases chars with
  | nil => cases h
  | cons c chars =>
    rw [encode_cons] at h
    rcases utf8EncodeChar_bytes c with ⟨b', hc, hb'⟩ | ⟨b', tail, hc, hb', -⟩
    · rw [hc] at h
      cases h
      exact .inl hb'
    · rw [hc] at h
      cases h
      exact .inr hb'

/-- An encoding that ends an encoding starts between two of its characters. -/
theorem encode_eq_append_encode {cs2 : List Char} (h : encode chars = t ++ encode cs2) :
    ∃ cs1, chars = cs1 ++ cs2 ∧ t = encode cs1 := by
  induction chars generalizing t with
  | nil =>
    obtain ⟨ht, hchs⟩ := append_eq_nil_iff.1 h.symm
    exact ⟨[], (encode_eq_nil_iff.1 hchs).symm, ht⟩
  | cons c chars ih =>
    by_cases ht : t = []
    · rw [ht] at h
      exact ⟨[], encode_injective h, ht⟩
    rcases append_eq_append_iff.1 h with ⟨u, hu, hrs⟩ | ⟨u, hu, hrs⟩
    · obtain ⟨cs1, hchs, hu'⟩ := ih hrs
      exact ⟨c :: cs1, by rw [hchs, cons_append], by rw [hu, hu', encode_cons]⟩
    · -- The rest of the character is continuation bytes, so there is none.
      have hnil : u = [] := by
        cases u with
        | nil => rfl
        | cons x u =>
          obtain ⟨b, t', rfl⟩ := exists_cons_of_ne_nil ht
          rcases utf8EncodeChar_bytes c with ⟨b', hc, -⟩ | ⟨b', tail, hc, -, htl⟩
          · rw [hc] at hu
            simp at hu
          · rw [hc, cons_append, cons.injEq] at hu
            have hx := htl x (by rw [hu.2]; simp)
            have hhd := encode_head hrs
            omega
      rw [hnil] at hrs
      refine ⟨[c], by rw [encode_injective hrs, singleton_append], ?_⟩
      rw [hnil, append_nil] at hu
      rw [← hu]
      simp [encode]

def Encoded (s : Text) : Prop := ∃ chars, s = encode chars

theorem Encoded.of_ascii {r : Text} (h : Encoded (t ++ b :: r))
    (hb : b.toNat < 0x80) : Encoded r := by
  obtain ⟨chars, hchs⟩ := h
  induction chars generalizing t with
  | nil => simp at hchs
  | cons c chars ih =>
    rcases append_eq_append_iff.1 hchs with ⟨u, hu, hrs⟩ | ⟨u, hu, hrs⟩
    · cases u with
      | nil => exact ih (t := []) hrs
      | cons x u =>
        -- The byte is in the first character, which therefore has no other.
        rw [cons_append, cons.injEq] at hrs
        obtain ⟨rfl, hrs⟩ := hrs
        have hmem : b ∈ String.utf8EncodeChar c := by
          rw [hu]
          simp
        rcases utf8EncodeChar_bytes c with ⟨b', hc, -⟩ | ⟨b', tail, hc, hb', htl⟩
        · rw [hc] at hu
          have hlen := congrArg length hu
          simp only [length_append, length_cons, length_nil] at hlen
          have hu : u = [] := length_eq_zero_iff.1 (by omega)
          rw [hu] at hrs
          exact ⟨chars, hrs⟩
        · rw [hc, mem_cons] at hmem
          rcases hmem with rfl | hmem
          · omega
          · have := htl b hmem
            omega
    · exact ih hrs.symm

theorem Encoded.of_ascii_prefix {r : Text} (h : Encoded (t ++ r))
    (ht : ∀ b ∈ t, b.toNat < 0x80) : Encoded r := by
  induction t with
  | nil => exact h
  | cons b t ih =>
    refine ih (Encoded.of_ascii (t := []) h (ht b mem_cons_self)) ?_
    intro x hx
    exact ht x (mem_cons_of_mem b hx)

theorem encoded_nil : Encoded [] := ⟨[], rfl⟩

theorem Encoded.read {s : Text} (h : Encoded s) (hne : s ≠ []) :
    Encoded (readNextUTF8Char s).2 := by
  obtain ⟨chars, rfl⟩ := h
  cases chars with
  | nil => exact absurd rfl hne
  | cons c chars => exact ⟨chars, by rw [readNextUTF8Char_encode]⟩

end USprache.LexSynt
