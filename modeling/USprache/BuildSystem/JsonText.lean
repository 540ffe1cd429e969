import USprache.BuildSystem.Json

/-!
# JSON texts

The texts of a value: whitespace may stand around the values and keys of an array or of an
object.  Both serializers write such a text, so what the parser makes of a text of a value
decides both round trips.
-/

namespace USprache.BuildSystem

open List JsonValue

open LexSynt (Text ascii asciiText)
open Ustlib (SizeType floatPropertiesF64)
open Ustlib.FloatParsing (parseAndExtractFloat parseFloatImpl Stops)
open Ustlib.FloatPrinting (IsFinite printerF64 readsAs_toString8)

def IsJsonWhitespace (c : UInt8) : Prop :=
  c = ascii ' ' ∨ c = ascii '\t' ∨ c = ascii '\r' ∨ c = ascii '\n'

def White (w : Text) : Prop := ∀ c ∈ w, IsJsonWhitespace c

theorem White.nil : White [] := fun _ h => by cases h

variable {w : Text} {c : UInt8} {rest : Text}

theorem White.append {w' : Text} (hw : White w) (hw' : White w') : White (w ++ w') := by
  intro c hc
  rcases mem_append.1 hc with h | h
  · exact hw c h
  · exact hw' c h

def StartsValue (c : UInt8) : Prop :=
  c = ascii 'n' ∨ c = ascii 'f' ∨ c = ascii 't' ∨ (ascii '0' ≤ c ∧ c ≤ ascii '9') ∨ c = ascii '-' ∨
    c = ascii '"' ∨ c = ascii '[' ∨ c = 123

def Follows (rest : Text) : Prop :=
  ∀ c ∈ rest.head?, IsJsonWhitespace c ∨ c = ascii ',' ∨ c = ascii ']' ∨ c = 125

theorem Follows.cons (h : c = ascii ',' ∨ c = ascii ']' ∨ c = 125) : Follows (c :: rest) := by
  intro d hd
  obtain rfl : c = d := Option.some.inj hd
  exact .inr h

theorem Follows.white_append (hw : White w) (hrs : Follows rest) : Follows (w ++ rest) := by
  cases w with
  | nil => exact hrs
  | cons c w =>
    intro d hd
    obtain rfl : c = d := Option.some.inj hd
    exact .inl (hw c mem_cons_self)

theorem Follows.stops (h : Follows rest) : Stops rest := by
  intro c hc
  rcases h c hc with (h | h | h | h) | h | h | h <;> subst h <;> decide

theorem skipJsonWhitespaces_append (hw : White w) (tx : Text) :
    skipJsonWhitespaces (w ++ tx) = skipJsonWhitespaces tx := by
  induction w with
  | nil => rfl
  | cons c w ih =>
    have hsk : skipJsonWhitespaces (c :: (w ++ tx)) = skipJsonWhitespaces (w ++ tx) :=
      if_pos (hw c mem_cons_self)
    rw [cons_append, hsk]
    exact ih fun d hd => hw d (mem_cons_of_mem c hd)

theorem StartsValue.not_whitespace (h : StartsValue c) : ¬IsJsonWhitespace c := by
  rintro (rfl | rfl | rfl | rfl) <;> revert h <;> unfold StartsValue <;> decide

theorem StartsValue.ne_close (h : StartsValue c) : c ≠ ascii ']' := by
  rintro rfl
  revert h
  unfold StartsValue
  decide

theorem skipJsonWhitespaces_cons (h : ¬IsJsonWhitespace c) (tx : Text) :
    skipJsonWhitespaces (c :: tx) = c :: tx := if_neg h

theorem skipJsonWhitespaces_skip (tx : Text) :
    skipJsonWhitespaces (skipJsonWhitespaces tx) = skipJsonWhitespaces tx := by
  induction tx with
  | nil => rfl
  | cons c tx ih =>
    by_cases h : IsJsonWhitespace c
    · rw [show skipJsonWhitespaces (c :: tx) = skipJsonWhitespaces tx from if_pos h]
      exact ih
    · rw [skipJsonWhitespaces_cons h, skipJsonWhitespaces_cons h]

def stringText (s : Text) : Text := ascii '"' :: (s.flatMap escapedChar ++ [ascii '"'])

theorem foldl_escapedChar (out s : Text) :
    s.foldl (fun out c => out ++ escapedChar c) out = out ++ s.flatMap escapedChar := by
  induction s generalizing out with
  | nil => exact (append_nil out).symm
  | cons c s ih => rw [foldl_cons, ih, flatMap_cons, append_assoc]

theorem serializeJsonString_eq (out s : Text) : serializeJsonString out s = out ++ stringText s := by
  rw [serializeJsonString, foldl_escapedChar, stringText]
  simp only [append_assoc, cons_append, nil_append]

/-- A byte is escaped by a sequence that stands for it, or needs no escape. -/
theorem escapedChar_cases (c : UInt8) :
    (∃ e, escapedChar c = [ascii '\\', e] ∧ e ≠ ascii 'u' ∧ unescapedChar e = some c) ∨
      c ≠ ascii '"' ∧ c ≠ ascii '\\' ∧ escapedChar c = [c] := by
  unfold escapedChar
  split
  · next h => exact .inl ⟨ascii '"', by decide, by decide, by rw [h]; decide⟩
  split
  · next h => exact .inl ⟨ascii '\\', by decide, by decide, by rw [h]; decide⟩
  split
  · next h => exact .inl ⟨ascii 'b', by decide, by decide, by rw [h]; decide⟩
  split
  · next h => exact .inl ⟨ascii 'f', by decide, by decide, by rw [h]; decide⟩
  split
  · next h => exact .inl ⟨ascii 'n', by decide, by decide, by rw [h]; decide⟩
  split
  · next h => exact .inl ⟨ascii 'r', by decide, by decide, by rw [h]; decide⟩
  split
  · next h => exact .inl ⟨ascii 't', by decide, by decide, by rw [h]; decide⟩
  · next hq hbsl _ _ _ _ _ => exact .inr ⟨hq, hbsl, rfl⟩

theorem parseStringContents_escapedChar (res : Text) (c : UInt8) (tx : Text) :
    parseStringContents res (escapedChar c ++ tx) = parseStringContents (res ++ [c]) tx := by
  rcases escapedChar_cases c with ⟨e, hesc, hu, he⟩ | ⟨hq, hbsl, hesc⟩
  · rw [hesc, cons_append, cons_append, nil_append, parseStringContents.eq_def]
    simp only [if_neg (show ascii '\\' ≠ ascii '"' by decide), if_true, if_neg hu, he]
  · rw [hesc, cons_append, nil_append, parseStringContents.eq_def]
    simp only [if_neg hq, if_neg hbsl]

theorem parseStringContents_flatMap (res s rest : Text) :
    parseStringContents res (s.flatMap escapedChar ++ ascii '"' :: rest) = some (res ++ s, rest) := by
  induction s generalizing res with
  | nil =>
    rw [parseStringContents.eq_def, append_nil]
    exact if_pos rfl
  | cons c s ih =>
    rw [flatMap_cons, append_assoc, parseStringContents_escapedChar, ih, append_assoc]
    rfl

theorem parseJsonString_stringText (s rest : Text) :
    parseJsonString (stringText s ++ rest) = some (s, rest) := by
  rw [stringText, cons_append, append_assoc]
  exact parseStringContents_flatMap [] s rest

mutual

inductive JsonText : JsonValue → Text → Prop where
  | null : JsonText .null (asciiText "null")
  | bool (b : Bool) : JsonText (.bool b) (if b then asciiText "true" else asciiText "false")
  | number {bits : Nat} (hbits : bits < 2 ^ floatPropertiesF64.integerBits)
      (hfinite : IsFinite floatPropertiesF64 bits) : JsonText (.number bits) (printerF64.toString8 bits)
  | string (s : Text) : JsonText (.string s) (stringText s)
  | emptyArray : JsonText (.array []) [ascii '[', ascii ']']
  | array {values : List JsonValue} {t : Text} (h : ElementsText values t) :
      JsonText (.array values) (ascii '[' :: t)
  | emptyObject : JsonText (.object []) [123, 125]
  | object {pairs : JsonValue.Object} {t : Text} (hkeys : pairs.Pairwise KeysDiffer)
      (h : PairsText pairs t) : JsonText (.object pairs) (123 :: t)

inductive ElementsText : List JsonValue → Text → Prop where
  | last {v : JsonValue} {w t w' : Text} (hw : White w) (hv : JsonText v t) (hw' : White w') :
      ElementsText [v] (w ++ (t ++ (w' ++ [ascii ']'])))
  | cons {v : JsonValue} {values : List JsonValue} {w t w' ts : Text} (hw : White w)
      (hv : JsonText v t) (hw' : White w') (h : ElementsText values ts) :
      ElementsText (v :: values) (w ++ (t ++ (w' ++ ascii ',' :: ts)))

inductive PairsText : JsonValue.Object → Text → Prop where
  | last {key : Text} {v : JsonValue} {w w1 w2 t w' : Text} (hw : White w) (hw1 : White w1)
      (hw2 : White w2) (hv : JsonText v t) (hw' : White w') :
      PairsText [(key, v)]
        (w ++ (stringText key ++ (w1 ++ ascii ':' :: (w2 ++ (t ++ (w' ++ [125]))))))
  | cons {key : Text} {v : JsonValue} {pairs : JsonValue.Object} {w w1 w2 t w' ts : Text}
      (hw : White w) (hw1 : White w1) (hw2 : White w2) (hv : JsonText v t) (hw' : White w')
      (h : PairsText pairs ts) :
      PairsText ((key, v) :: pairs)
        (w ++ (stringText key ++ (w1 ++ ascii ':' :: (w2 ++ (t ++ (w' ++ ascii ',' :: ts))))))

end

theorem toString8_start {bs : Nat} (hbts : bs < 2 ^ floatPropertiesF64.integerBits)
    (hfin : IsFinite floatPropertiesF64 bs) :
    ∃ c t, printerF64.toString8 bs = c :: t ∧ ((ascii '0' ≤ c ∧ c ≤ ascii '9') ∨ c = ascii '-') := by
  obtain ⟨tx, ht⟩ := (readsAs_toString8 (C := UInt8) .f64 .bytes8 hbts hfin).text
  have hchs : printerF64.toString8 bs = tx.chars := ht.symm
  rw [hchs, Ustlib.FloatParsing.FloatText.chars]
  cases tx.negative with
  | true => exact ⟨_, _, rfl, .inr rfl⟩
  | false =>
    rcases hint : tx.integerDigits with ⟨ds, hne, hds⟩
    rw [Ustlib.FloatParsing.FloatText.unsignedChars, hint]
    cases ds with
    | nil => exact absurd rfl hne
    | cons c ds =>
      refine ⟨c, _, rfl, .inl ?_⟩
      have hd := hds c mem_cons_self
      simp only [Ustlib.NumberParsing.isDigit, decide_eq_true_eq, Bool.and_eq_true] at hd
      exact hd

theorem parseJsonNumber_toString8 (size : SizeType) {bs : Nat}
    (hbts : bs < 2 ^ floatPropertiesF64.integerBits) (hfin : IsFinite floatPropertiesF64 bs)
    {rest : Text} (hrs : Stops rest) :
    parseJsonNumber size (printerF64.toString8 bs ++ rest) = .ok (some (bs, rest)) := by
  have hpa : parseFloatImpl floatPropertiesF64 size (printerF64.toString8 bs ++ rest) =
      .ok (some bs, rest) := (readsAs_toString8 .f64 size hbts hfin).parse rest hrs
  have hextract : parseAndExtractFloat floatPropertiesF64 size (printerF64.toString8 bs ++ rest) =
      .ok (some bs, rest) := by
    rw [parseAndExtractFloat, hpa]
    rfl
  rw [parseJsonNumber, hextract]

theorem JsonText.start {v : JsonValue} {t : Text} (h : JsonText v t) :
    ∃ c t', t = c :: t' ∧ StartsValue c := by
  cases h with
  | null => exact ⟨ascii 'n', asciiText "ull", by decide, .inl rfl⟩
  | bool b =>
    cases b with
    | false => exact ⟨ascii 'f', asciiText "alse", by decide, .inr (.inl rfl)⟩
    | true => exact ⟨ascii 't', asciiText "rue", by decide, .inr (.inr (.inl rfl))⟩
  | number hbts hfin =>
    obtain ⟨c, t', ht, hc⟩ := toString8_start hbts hfin
    refine ⟨c, t', ht, ?_⟩
    rcases hc with hc | hc
    · exact .inr (.inr (.inr (.inl hc)))
    · exact .inr (.inr (.inr (.inr (.inl hc))))
  | string s | emptyArray | array h | emptyObject | object hkeys h =>
    exact ⟨_, _, rfl, by unfold StartsValue; decide⟩

namespace JsonValue

def isLiteral : JsonValue → Bool
  | .null => true
  | .bool _ => true
  | _ => false

mutual

def literalFree : JsonValue → Bool
  | .null => false
  | .bool _ => false
  | .number _ => true
  | .string _ => true
  | .array values => literalFreeElements values
  | .object pairs => literalFreePairs pairs

def literalFreeElements : List JsonValue → Bool
  | [] => true
  | v :: values => literalFree v && literalFreeElements values

def literalFreePairs : Object → Bool
  | [] => true
  | (_, v) :: pairs => literalFree v && literalFreePairs pairs

end

theorem literalFree_of_isLiteral {v : JsonValue} (h : v.isLiteral = true) : v.literalFree = false := by
  cases v <;> first | rfl | cases h

def insertAll (object pairs : Object) : Object :=
  pairs.foldl (fun object pair => insertOrUpdate object pair.1 pair.2) object

theorem insertOrUpdate_new {obj : Object} {key : Text} {val : JsonValue}
    (h : ∀ p ∈ obj, KeysDiffer p (key, val)) :
    insertOrUpdate obj key val = obj ++ [(key, val)] := by
  induction obj with
  | nil => rfl
  | cons p obj ih =>
    have hne : p.1 ≠ key := beq_eq_false_iff_ne.1 (h p mem_cons_self)
    rw [insertOrUpdate, if_neg hne, ih fun p hpr => h p (mem_cons_of_mem _ hpr), cons_append]

theorem insertAll_new {obj ps : Object} (h : (obj ++ ps).Pairwise KeysDiffer) :
    insertAll obj ps = obj ++ ps := by
  induction ps generalizing obj with
  | nil => exact (append_nil obj).symm
  | cons p ps ih =>
    have hnew : ∀ other ∈ obj, KeysDiffer other p := fun other ho =>
      (pairwise_append.1 h).2.2 other ho p mem_cons_self
    have hass : obj ++ p :: ps = (obj ++ [p]) ++ ps := by
      rw [append_assoc, cons_append, nil_append]
    rw [hass] at h ⊢
    rw [insertAll, foldl_cons, insertOrUpdate_new hnew]
    exact ih h

end JsonValue

/-- A literal is left in the text and the text behind it is lost, so that no array and no object
with a literal in it can be parsed. -/
def outcome (v : JsonValue) (t rest : Text) : Option (JsonValue × Text) :=
  if v.isLiteral then some (v, t) else if v.literalFree then some (v, rest) else none

variable {close : UInt8}

theorem parseSeparator_comma (hw : White w) (rest : Text) :
    parseSeparator close (w ++ ascii ',' :: rest) = some (.comma, rest) := by
  rw [parseSeparator, skipJsonWhitespaces_append hw]
  exact if_pos rfl

theorem parseSeparator_close (hw : White w) (hcl : close = ascii ']' ∨ close = 125) (rest : Text) :
    parseSeparator close (w ++ close :: rest) = some (.close, rest) := by
  rw [parseSeparator, skipJsonWhitespaces_append hw]
  rcases hcl with rfl | rfl <;> rfl

theorem parseSeparator_literal {v : JsonValue} {t : Text} (h : JsonText v t)
    (hv : v.isLiteral = true)
    (hcl : close = ascii ']' ∨ close = 125) : parseSeparator close t = none := by
  cases h with
  | null => rcases hcl with rfl | rfl <;> decide
  | bool b => rcases hcl with rfl | rfl <;> cases b <;> decide
  | number | string | emptyArray | array | emptyObject | object => cases hv

theorem parseKey_stringText {w' : Text} (hw : White w) (hw' : White w') (key rest : Text) :
    parseKey (w ++ (stringText key ++ (w' ++ ascii ':' :: rest))) = some (key, rest) := by
  have hst : skipJsonWhitespaces (stringText key ++ (w' ++ ascii ':' :: rest)) =
      stringText key ++ (w' ++ ascii ':' :: rest) :=
    skipJsonWhitespaces_cons (by unfold IsJsonWhitespace; decide) _
  have hco : skipJsonWhitespaces (ascii ':' :: rest) = ascii ':' :: rest :=
    skipJsonWhitespaces_cons (by unfold IsJsonWhitespace; decide) _
  rw [parseKey, skipJsonWhitespaces_append hw, hst, parseJsonString_stringText]
  simp only
  rw [skipJsonWhitespaces_append hw']
  exact if_pos rfl

section

variable (size : SizeType)

theorem parseJsonLiteral_append (expected : Text) (v : JsonValue) (rest : Text) :
    parseJsonLiteral expected v (expected ++ rest) = some (v, expected) := by
  have hsts : expected.isPrefixOf (expected ++ rest) = true :=
    isPrefixOf_iff_prefix.2 (prefix_append expected rest)
  rw [parseJsonLiteral, if_pos hsts, subrangeEnd]
  split
  · next h =>
    rw [length_append] at h
    obtain rfl : rest = [] := length_eq_zero_iff.1 (by omega)
    rw [append_nil]
  · rw [take_left]

theorem parseJsonImpl_skip (fuel : Nat) (tx : Text) :
    parseJsonImpl size fuel (skipJsonWhitespaces tx) = parseJsonImpl size fuel tx := by
  cases fuel with
  | zero => rfl
  | succ fuel => rw [parseJsonImpl, parseJsonImpl, skipJsonWhitespaces_skip]

theorem parseElements_skip (fuel : Nat) (array : List JsonValue) (tx : Text) :
    parseElements size fuel array (skipJsonWhitespaces tx) = parseElements size fuel array tx := by
  cases fuel with
  | zero => rfl
  | succ fuel => rw [parseElements, parseElements, parseJsonImpl_skip]

theorem parsePairs_skip (fuel : Nat) (obj : JsonValue.Object) (tx : Text) :
    parsePairs size fuel obj (skipJsonWhitespaces tx) = parsePairs size fuel obj tx := by
  cases fuel with
  | zero => rfl
  | succ fuel => rw [parsePairs, parsePairs, parseKey, parseKey, skipJsonWhitespaces_skip]

variable {s : Text} {v : JsonValue} {t : Text}

/-- The branches of `ParseJsonImpl` for the first bytes of the composite values. -/
theorem parseJsonImpl_array {s' : Text} (hw : White w)
    (hs : skipJsonWhitespaces s = c :: s') (hc : c ≠ ascii ']') (fuel : Nat) :
    parseJsonImpl size (fuel + 1) (w ++ ascii '[' :: s) = parseElements size fuel [] s := by
  rw [parseJsonImpl, skipJsonWhitespaces_append hw,
    skipJsonWhitespaces_cons (by unfold IsJsonWhitespace; decide)]
  simp only
  rw [if_neg (by decide), if_neg (by decide), if_neg (by decide), if_neg (by decide),
    if_neg (by decide), if_pos trivial, hs]
  simp only
  rw [if_neg hc, ← hs, parseElements_skip]

theorem parseJsonImpl_object {s' : Text} (hw : White w)
    (hs : skipJsonWhitespaces s = c :: s') (hc : c ≠ 125) (fuel : Nat) :
    parseJsonImpl size (fuel + 1) (w ++ 123 :: s) = parsePairs size fuel [] s := by
  rw [parseJsonImpl, skipJsonWhitespaces_append hw,
    skipJsonWhitespaces_cons (by unfold IsJsonWhitespace; decide)]
  simp only
  rw [if_neg (by decide), if_neg (by decide), if_neg (by decide), if_neg (by decide),
    if_neg (by decide), if_neg (by decide), if_pos trivial, hs]
  simp only
  rw [if_neg hc, ← hs, parsePairs_skip]

theorem parseJsonImpl_number (hw : White w)
    (hc : (ascii '0' ≤ c ∧ c ≤ ascii '9') ∨ c = ascii '-') {bs : Nat} {rest : Text}
    (hpa : parseJsonNumber size (c :: s) = .ok (some (bs, rest))) (fuel : Nat) :
    parseJsonImpl size (fuel + 1) (w ++ c :: s) = .ok (some (.number bs, rest)) := by
  have hsts : StartsValue c := by
    rcases hc with hc | hc
    · exact .inr (.inr (.inr (.inl hc)))
    · exact .inr (.inr (.inr (.inr (.inl hc))))
  have hne : c ≠ ascii 'n' ∧ c ≠ ascii 'f' ∧ c ≠ ascii 't' := by
    refine ⟨?_, ?_, ?_⟩ <;> rintro rfl <;> revert hc <;> decide
  rw [parseJsonImpl, skipJsonWhitespaces_append hw, skipJsonWhitespaces_cons hsts.not_whitespace]
  simp only
  rw [if_neg hne.1, if_neg hne.2.1, if_neg hne.2.2, if_pos hc, hpa]

theorem parseJsonImpl_string (hw : White w) (str rest : Text) (fuel : Nat) :
    parseJsonImpl size (fuel + 1) (w ++ (stringText str ++ rest)) = .ok (some (.string str, rest)) := by
  have hst : skipJsonWhitespaces (w ++ (stringText str ++ rest)) = stringText str ++ rest := by
    rw [skipJsonWhitespaces_append hw]
    exact skipJsonWhitespaces_cons (by unfold IsJsonWhitespace; decide) _
  have hco : stringText str ++ rest =
      ascii '"' :: (str.flatMap escapedChar ++ [ascii '"'] ++ rest) := rfl
  rw [parseJsonImpl, hst, hco]
  simp only
  rw [← hco, parseJsonString_stringText]
  rfl

theorem parseJsonImpl_literal (hw : White w) (h : JsonText v t)
    (hv : v.isLiteral = true) (rest : Text) (fuel : Nat) :
    parseJsonImpl size (fuel + 1) (w ++ (t ++ rest)) = .ok (some (v, t)) := by
  obtain ⟨c, t', ht, hc⟩ := h.start
  have hsk : skipJsonWhitespaces (w ++ (t ++ rest)) = c :: (t' ++ rest) := by
    rw [skipJsonWhitespaces_append hw, ht]
    exact skipJsonWhitespaces_cons hc.not_whitespace _
  rw [parseJsonImpl, hsk]
  simp only
  have hco : c :: (t' ++ rest) = t ++ rest := by rw [ht, cons_append]
  cases h with
  | null =>
    obtain rfl : ascii 'n' = c := (cons.inj ht).1
    rw [if_pos rfl, hco, parseJsonLiteral_append]
  | bool b =>
    cases b with
    | false =>
      obtain rfl : ascii 'f' = c := (cons.inj ht).1
      rw [if_neg (by decide), hco]
      exact congrArg _ (parseJsonLiteral_append (asciiText "false") _ rest)
    | true =>
      obtain rfl : ascii 't' = c := (cons.inj ht).1
      rw [if_neg (by decide), if_neg (by decide), hco]
      exact congrArg _ (parseJsonLiteral_append (asciiText "true") _ rest)
  | number | string | emptyArray | array | emptyObject | object => cases hv

theorem parseElements_step {next : Text} (hv : JsonText v t) {tx : Text}
    {fuel : Nat} (hpa : parseJsonImpl size fuel tx = .ok (outcome v t next))
    (array : List JsonValue) :
    parseElements size (fuel + 1) array tx =
      if v.literalFree then
        match parseSeparator (ascii ']') next with
        | none => .ok none
        | some (.comma, tx) => parseElements size fuel (array ++ [v]) tx
        | some (.close, tx) => .ok (some (.array (array ++ [v]), tx))
      else .ok none := by
  rw [parseElements, hpa, outcome]
  by_cases hlit : v.isLiteral = true
  · have hsep := parseSeparator_literal hv hlit (.inl rfl : ascii ']' = ascii ']' ∨ _)
    rw [if_pos hlit, literalFree_of_isLiteral hlit]
    simp only [hsep]
    rfl
  · rw [if_neg hlit]
    cases v.literalFree <;> rfl

theorem parsePairs_step {next : Text} (hv : JsonText v t) {key tx t' : Text}
    (hkey : parseKey tx = some (key, t')) {fuel : Nat}
    (hpa : parseJsonImpl size fuel t' = .ok (outcome v t next)) (obj : JsonValue.Object) :
    parsePairs size (fuel + 1) obj tx =
      if v.literalFree then
        match parseSeparator 125 next with
        | none => .ok none
        | some (.comma, tx) => parsePairs size fuel (insertOrUpdate obj key v) tx
        | some (.close, tx) => .ok (some (.object (insertOrUpdate obj key v), tx))
      else .ok none := by
  rw [parsePairs, hkey]
  simp only
  rw [hpa, outcome]
  by_cases hlit : v.isLiteral = true
  · have hsep := parseSeparator_literal hv hlit (.inr rfl : (125 : UInt8) = ascii ']' ∨ _)
    rw [if_pos hlit, literalFree_of_isLiteral hlit]
    simp only [hsep]
    rfl
  · rw [if_neg hlit]
    cases v.literalFree <;> rfl

theorem ElementsText.start {vs : List JsonValue} (h : ElementsText vs t)
    (rest : Text) : ∃ c s, skipJsonWhitespaces (t ++ rest) = c :: s ∧ c ≠ ascii ']' := by
  have hst : ∀ {w t s : Text} {v : JsonValue}, White w → JsonText v t →
      ∃ c s', skipJsonWhitespaces (w ++ (t ++ s) ++ rest) = c :: s' ∧ c ≠ ascii ']' := by
    intro w t s v hw hv
    obtain ⟨c, t', rfl, hc⟩ := hv.start
    refine ⟨c, t' ++ s ++ rest, ?_, hc.ne_close⟩
    rw [append_assoc, skipJsonWhitespaces_append hw]
    exact skipJsonWhitespaces_cons hc.not_whitespace _
  cases h with
  | last hw hv hw' | cons hw hv hw' h => exact hst hw hv

theorem PairsText.start {ps : JsonValue.Object} (h : PairsText ps t) (rest : Text) :
    ∃ s, skipJsonWhitespaces (t ++ rest) = ascii '"' :: s := by
  have hst : ∀ {w key s : Text}, White w →
      ∃ s', skipJsonWhitespaces (w ++ (stringText key ++ s) ++ rest) = ascii '"' :: s' := by
    intro w key s hw
    rw [append_assoc, skipJsonWhitespaces_append hw]
    exact ⟨_, skipJsonWhitespaces_cons (by unfold IsJsonWhitespace; decide) _⟩
  cases h with
  | last hw | cons hw => exact hst hw

mutual

theorem JsonText.parse {v : JsonValue} {t : Text} (h : JsonText v t) {w rest : Text} (hw : White w)
    (hrs : Follows rest) {fuel : Nat} (hf : 2 * t.length + 1 ≤ fuel) :
    parseJsonImpl size fuel (w ++ (t ++ rest)) = .ok (outcome v t rest) := by
  obtain ⟨fuel, rfl⟩ : ∃ n, fuel = n + 1 := ⟨fuel - 1, by omega⟩
  cases h with
  | null => exact parseJsonImpl_literal size hw .null rfl rest fuel
  | bool b => exact parseJsonImpl_literal size hw (.bool b) rfl rest fuel
  | number hbts hfin =>
    obtain ⟨c, t', ht, hc⟩ := toString8_start hbts hfin
    have hpa := parseJsonNumber_toString8 size hbts hfin hrs.stops
    rw [ht, cons_append] at hpa ⊢
    exact parseJsonImpl_number size hw hc hpa fuel
  | string s => exact parseJsonImpl_string size hw s rest fuel
  | emptyArray | emptyObject =>
    rw [parseJsonImpl, skipJsonWhitespaces_append hw]
    rfl
  | array hels =>
    rw [length_cons] at hf
    obtain ⟨c, s, hs, hc⟩ := hels.start rest
    rw [cons_append, parseJsonImpl_array size hw hs hc, ElementsText.parse hels hrs (by omega) []]
    rfl
  | object hkeys hprs =>
    rw [length_cons] at hf
    obtain ⟨s, hs⟩ := hprs.start rest
    rw [cons_append, parseJsonImpl_object size hw hs (by decide),
      PairsText.parse hprs hrs (by omega) [], @insertAll_new [] _ hkeys]
    rfl

theorem ElementsText.parse {vs : List JsonValue} {t : Text} (h : ElementsText vs t)
    {rest : Text} (hrs : Follows rest) {fuel : Nat} (hf : 2 * t.length ≤ fuel)
    (array : List JsonValue) :
    parseElements size fuel array (t ++ rest) =
      .ok (if literalFreeElements vs then some (.array (array ++ vs), rest)
        else none) := by
  cases h with
  | last hw hv hw' =>
    rename_i v w t w'
    simp only [length_append, length_cons, length_nil] at hf
    obtain ⟨fuel, rfl⟩ : ∃ n, fuel = n + 1 := ⟨fuel - 1, by omega⟩
    have hnx : Follows (w' ++ ascii ']' :: rest) :=
      Follows.white_append hw' (Follows.cons (.inr (.inl rfl)))
    have hpa := JsonText.parse hv hw hnx (show 2 * t.length + 1 ≤ fuel by omega)
    simp only [append_assoc, cons_append, nil_append]
    rw [parseElements_step size hv hpa, parseSeparator_close hw' (.inl rfl),
      literalFreeElements, literalFreeElements, Bool.and_true]
    cases v.literalFree <;> rfl
  | cons hw hv hw' hels =>
    rename_i v vs w t w' ts
    simp only [length_append, length_cons] at hf
    obtain ⟨fuel, rfl⟩ : ∃ n, fuel = n + 1 := ⟨fuel - 1, by omega⟩
    have hnx : Follows (w' ++ ascii ',' :: (ts ++ rest)) :=
      Follows.white_append hw' (Follows.cons (.inl rfl))
    have hpa := JsonText.parse hv hw hnx (show 2 * t.length + 1 ≤ fuel by omega)
    have hels' := ElementsText.parse hels hrs (show 2 * ts.length ≤ fuel by omega) (array ++ [v])
    simp only [append_assoc, cons_append, nil_append] at hels' ⊢
    rw [parseElements_step size hv hpa, parseSeparator_comma hw', literalFreeElements]
    simp only
    rw [hels']
    cases v.literalFree <;> rfl

theorem PairsText.parse {ps : JsonValue.Object} {t : Text} (h : PairsText ps t)
    {rest : Text} (hrs : Follows rest) {fuel : Nat} (hf : 2 * t.length ≤ fuel)
    (obj : JsonValue.Object) :
    parsePairs size fuel obj (t ++ rest) = .ok (if literalFreePairs ps then
        some (.object (insertAll obj ps), rest) else none) := by
  cases h with
  | last hw hw1 hw2 hv hw' =>
    rename_i key v w w1 w2 t w'
    simp only [length_append, length_cons, length_nil] at hf
    obtain ⟨fuel, rfl⟩ : ∃ n, fuel = n + 1 := ⟨fuel - 1, by omega⟩
    have hnx : Follows (w' ++ 125 :: rest) :=
      Follows.white_append hw' (Follows.cons (.inr (.inr rfl)))
    have hpa := JsonText.parse hv hw2 hnx (show 2 * t.length + 1 ≤ fuel by omega)
    simp only [append_assoc, cons_append, nil_append]
    rw [parsePairs_step size hv (parseKey_stringText hw hw1 key _) hpa,
      parseSeparator_close hw' (.inr rfl), literalFreePairs, literalFreePairs,
      Bool.and_true]
    cases v.literalFree <;> rfl
  | cons hw hw1 hw2 hv hw' hprs =>
    rename_i key v ps w w1 w2 t w' ts
    simp only [length_append, length_cons] at hf
    obtain ⟨fuel, rfl⟩ : ∃ n, fuel = n + 1 := ⟨fuel - 1, by omega⟩
    have hnx : Follows (w' ++ ascii ',' :: (ts ++ rest)) :=
      Follows.white_append hw' (Follows.cons (.inl rfl))
    have hpa := JsonText.parse hv hw2 hnx (show 2 * t.length + 1 ≤ fuel by omega)
    have hprs' := PairsText.parse hprs hrs (show 2 * ts.length ≤ fuel by omega)
      (insertOrUpdate obj key v)
    simp only [append_assoc, cons_append]
    rw [parsePairs_step size hv (parseKey_stringText hw hw1 key _) hpa, parseSeparator_comma hw',
      literalFreePairs]
    simp only
    rw [hprs']
    cases v.literalFree <;> rfl

end

end

end USprache.BuildSystem
