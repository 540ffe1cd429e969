import USprache.BuildSystem.JsonText

/-!
# The round trip of JSON values

Both serializers write a text of the value, the compact one without whitespace.  The parser
restores the value from it unless there is a literal inside of an array or of an object.
-/

namespace USprache.BuildSystem

open List

open LexSynt (Text ascii asciiText)
open Ustlib (SizeType floatPropertiesF64)
open Ustlib.FloatPrinting (IsFinite IsNaN)

namespace JsonValue

mutual

/-- All numbers are finite, and the keys of an object are different, as in any hash map. -/
def Valid : JsonValue → Prop
  | .null => True
  | .bool _ => True
  | .number bits => bits < 2 ^ floatPropertiesF64.integerBits ∧ IsFinite floatPropertiesF64 bits
  | .string _ => True
  | .array values => ValidElements values
  | .object pairs => pairs.Pairwise KeysDiffer ∧ ValidPairs pairs

def ValidElements : List JsonValue → Prop
  | [] => True
  | v :: values => v.Valid ∧ ValidElements values

def ValidPairs : Object → Prop
  | [] => True
  | (_, v) :: pairs => v.Valid ∧ ValidPairs pairs

end

theorem equalNumbers_self {bs : Nat} (h : IsFinite floatPropertiesF64 bs) :
    equalNumbers bs bs = true := by
  have hnan : ¬IsNaN floatPropertiesF64 bs := fun hnan => h hnan.1
  rw [equalNumbers, decide_eq_true_eq]
  exact ⟨hnan, hnan, .inl rfl⟩

theorem find_of_mem {obj : Object} (h : obj.Pairwise KeysDiffer) {key : Text} {v : JsonValue}
    (hmem : (key, v) ∈ obj) : find obj key = some v :=
  (FiniteMap.lookupIn_eq_some_iff h).2 ⟨key, hmem, beq_self_eq_true key⟩

mutual

theorem equal_self (v : JsonValue) (h : v.Valid) : equal v v = true := by
  cases v with
  | null => rfl
  | bool b | string s => exact decide_eq_true rfl
  | number bits => exact equalNumbers_self h.2
  | array vs => exact equalArrays_self vs h
  | object ps =>
    rw [equal, containedIn_self ps h.2 ps (fun key v => find_of_mem h.1), decide_eq_true rfl]
    rfl

theorem equalArrays_self (vs : List JsonValue) (h : ValidElements vs) :
    equalArrays vs vs = true := by
  cases vs with
  | nil => rfl
  | cons v vs =>
    rw [equalArrays, equal_self v h.1, equalArrays_self vs h.2]
    rfl

theorem containedIn_self (ps : Object) (h : ValidPairs ps) (r : Object)
    (hr : ∀ key v, (key, v) ∈ ps → find r key = some v) : containedIn r ps = true := by
  cases ps with
  | nil => rfl
  | cons p ps =>
    obtain ⟨key, v⟩ := p
    rw [containedIn, hr key v mem_cons_self]
    simp only
    rw [equal_self v h.1,
      containedIn_self ps h.2 r fun key v hmem => hr key v (mem_cons_of_mem _ hmem)]
    rfl

end

end JsonValue

mutual

theorem serializeJsonValueTo_text (v : JsonValue) (h : v.Valid) :
    ∃ t, JsonText v t ∧ ∀ out, serializeJsonValueTo out v = out ++ t := by
  cases v with
  | null => exact ⟨_, .null, fun out => rfl⟩
  | bool b => exact ⟨_, .bool b, fun out => rfl⟩
  | number bits => exact ⟨_, .number h.1 h.2, fun out => rfl⟩
  | string s => exact ⟨_, .string s, fun out => serializeJsonString_eq out s⟩
  | array vs =>
    by_cases hne : vs = []
    · subst hne
      exact ⟨_, .emptyArray, fun out => append_assoc out _ _⟩
    · obtain ⟨t, ht, hout⟩ := serializeElements_text vs h hne
      refine ⟨_, .array ht, fun out => ?_⟩
      rw [serializeJsonValueTo, hout, if_neg (by simpa using hne), ← append_assoc, dropLast_concat]
      simp only [append_assoc, cons_append, nil_append]
  | object ps =>
    by_cases hne : ps = []
    · subst hne
      exact ⟨_, .emptyObject, fun out => append_assoc out _ _⟩
    · obtain ⟨t, ht, hout⟩ := serializePairs_text ps h.2 hne
      refine ⟨_, .object h.1 ht, fun out => ?_⟩
      rw [serializeJsonValueTo, hout, if_neg (by simpa using hne), ← append_assoc, dropLast_concat]
      simp only [append_assoc, cons_append, nil_append]

theorem serializeElements_text (vs : List JsonValue) (h : JsonValue.ValidElements vs)
    (hne : vs ≠ []) :
    ∃ t, ElementsText vs (t ++ [ascii ']']) ∧
      ∀ out, serializeElements out vs = out ++ (t ++ [ascii ',']) := by
  cases vs with
  | nil => exact absurd rfl hne
  | cons v vs =>
    obtain ⟨t, ht, hout⟩ := serializeJsonValueTo_text v h.1
    by_cases hla : vs = []
    · subst hla
      refine ⟨t, .last .nil ht .nil, fun out => ?_⟩
      rw [serializeElements, hout, serializeElements, append_assoc]
    · obtain ⟨ts, hts, hout'⟩ := serializeElements_text vs h.2 hla
      refine ⟨t ++ ascii ',' :: ts, ?_, fun out => ?_⟩
      · rw [append_assoc]
        exact .cons .nil ht .nil hts
      · rw [serializeElements, hout, hout']
        simp only [append_assoc, cons_append, nil_append]

theorem serializePairs_text (ps : JsonValue.Object) (h : JsonValue.ValidPairs ps) (hne : ps ≠ []) :
    ∃ t, PairsText ps (t ++ [125]) ∧ ∀ out, serializePairs out ps = out ++ (t ++ [ascii ',']) := by
  cases ps with
  | nil => exact absurd rfl hne
  | cons p ps =>
    obtain ⟨key, v⟩ := p
    obtain ⟨t, ht, hout⟩ := serializeJsonValueTo_text v h.1
    by_cases hla : ps = []
    · subst hla
      refine ⟨stringText key ++ ascii ':' :: t, ?_, fun out => ?_⟩
      · rw [append_assoc]
        exact .last .nil .nil .nil ht .nil
      · rw [serializePairs, serializeJsonString_eq, hout, serializePairs]
        simp only [append_assoc, cons_append, nil_append]
    · obtain ⟨ts, hts, hout'⟩ := serializePairs_text ps h.2 hla
      refine ⟨stringText key ++ ascii ':' :: (t ++ ascii ',' :: ts), ?_, fun out => ?_⟩
      · rw [append_assoc, cons_append, append_assoc]
        exact .cons .nil .nil .nil ht .nil hts
      · rw [serializePairs, serializeJsonString_eq, hout, hout']
        simp only [append_assoc, cons_append, nil_append]

end

theorem White.newLine : White [ascii '\n'] := by
  intro c hc
  rw [mem_singleton] at hc
  exact .inr (.inr (.inr hc))

theorem White.space : White [ascii ' '] := by
  intro c hc
  rw [mem_singleton] at hc
  exact .inl hc

def tabs (indentation : UInt32) : Text := List.replicate indentation.toNat (ascii '\t')

theorem White.tabs (indentation : UInt32) : White (tabs indentation) := by
  intro c hc
  exact .inr (.inl (eq_of_mem_replicate hc))

mutual

theorem serializeJsonValuePrettyImpl_text (v : JsonValue) (h : v.Valid) (indentation : UInt32) :
    ∃ t, JsonText v t ∧ ∀ out, serializeJsonValuePrettyImpl out indentation v = out ++ t := by
  cases v with
  | null => exact ⟨_, .null, fun out => rfl⟩
  | bool b => exact ⟨_, .bool b, fun out => rfl⟩
  | number bits => exact ⟨_, .number h.1 h.2, fun out => rfl⟩
  | string s => exact ⟨_, .string s, fun out => serializeJsonString_eq out s⟩
  | array vs =>
    by_cases hne : vs = []
    · subst hne
      exact ⟨_, .emptyArray, fun out => rfl⟩
    · obtain ⟨t, ht, hout⟩ := serializeElementsPretty_text vs h hne indentation
      refine ⟨_, .array (ht _ _ .newLine (.tabs indentation)), fun out => ?_⟩
      rw [serializeJsonValuePrettyImpl, if_neg (by simpa using hne), hout, indent, tabs,
        show asciiText "[\n" = [ascii '[', ascii '\n'] by decide]
      simp only [append_assoc, cons_append, nil_append]
  | object ps =>
    by_cases hne : ps = []
    · subst hne
      exact ⟨_, .emptyObject, fun out => rfl⟩
    · obtain ⟨t, ht, hout⟩ := serializePairsPretty_text ps h.2 hne indentation
      refine ⟨_, .object h.1 (ht _ _ .newLine (.tabs indentation)), fun out => ?_⟩
      rw [serializeJsonValuePrettyImpl, if_neg (by simpa using hne), hout, indent, tabs]
      simp only [append_assoc, cons_append, nil_append]

theorem serializeElementsPretty_text (vs : List JsonValue) (h : JsonValue.ValidElements vs)
    (hne : vs ≠ []) (indentation : UInt32) :
    ∃ t, (∀ w w', White w → White w' → ElementsText vs (w ++ (t ++ (w' ++ [ascii ']'])))) ∧
      ∀ out, serializeElementsPretty out indentation vs = out ++ t := by
  cases vs with
  | nil => exact absurd rfl hne
  | cons v vs =>
    obtain ⟨t, ht, hout⟩ := serializeJsonValuePrettyImpl_text v h.1 (indentation + 1)
    by_cases hla : vs = []
    · subst hla
      refine ⟨tabs (indentation + 1) ++ (t ++ [ascii '\n']), fun w w' hw hw' => ?_, fun out => ?_⟩
      · have htext := ElementsText.last (hw.append (.tabs (indentation + 1))) ht
          (White.newLine.append hw')
        simp only [append_assoc] at htext ⊢
        exact htext
      · rw [serializeElementsPretty, hout, serializeElementsPretty, endLine, if_pos isEmpty_nil, indent, tabs]
        simp only [append_assoc]
    · obtain ⟨ts, hts, hout'⟩ := serializeElementsPretty_text vs h.2 hla indentation
      refine ⟨tabs (indentation + 1) ++ (t ++ (ascii ',' :: ascii '\n' :: ts)),
        fun w w' hw hw' => ?_, fun out => ?_⟩
      · have htext := ElementsText.cons (hw.append (.tabs (indentation + 1))) ht .nil
          (hts [ascii '\n'] w' .newLine hw')
        simp only [append_assoc, cons_append, nil_append] at htext ⊢
        exact htext
      · rw [serializeElementsPretty, hout, hout', endLine, if_neg (by simpa using hla), indent, tabs]
        simp only [append_assoc, cons_append, nil_append]

theorem serializePairsPretty_text (ps : JsonValue.Object) (h : JsonValue.ValidPairs ps)
    (hne : ps ≠ []) (indentation : UInt32) :
    ∃ t, (∀ w w', White w → White w' → PairsText ps (w ++ (t ++ (w' ++ [125])))) ∧
      ∀ out, serializePairsPretty out indentation ps = out ++ t := by
  have hco : asciiText " : " = [ascii ' ', ascii ':', ascii ' '] := by decide
  cases ps with
  | nil => exact absurd rfl hne
  | cons p ps =>
    obtain ⟨key, v⟩ := p
    obtain ⟨t, ht, hout⟩ := serializeJsonValuePrettyImpl_text v h.1 (indentation + 1)
    by_cases hla : ps = []
    · subst hla
      refine ⟨tabs (indentation + 1) ++ (stringText key ++
        (ascii ' ' :: ascii ':' :: ascii ' ' :: (t ++ [ascii '\n']))), fun w w' hw hw' => ?_,
        fun out => ?_⟩
      · have htext := @PairsText.last key _ _ _ _ _ _ (hw.append (.tabs (indentation + 1))) .space
          .space ht (White.newLine.append hw')
        simp only [append_assoc, cons_append, nil_append] at htext ⊢
        exact htext
      · rw [serializePairsPretty, serializeJsonString_eq, hout, serializePairsPretty, endLine,
          if_pos isEmpty_nil, indent, tabs, hco]
        simp only [append_assoc, cons_append, nil_append]
    · obtain ⟨ts, hts, hout'⟩ := serializePairsPretty_text ps h.2 hla indentation
      refine ⟨tabs (indentation + 1) ++ (stringText key ++
        (ascii ' ' :: ascii ':' :: ascii ' ' :: (t ++ (ascii ',' :: ascii '\n' :: ts)))),
        fun w w' hw hw' => ?_, fun out => ?_⟩
      · have htext := @PairsText.cons key _ _ _ _ _ _ _ _ (hw.append (.tabs (indentation + 1))) .space
          .space ht .nil (hts [ascii '\n'] w' .newLine hw')
        simp only [append_assoc, cons_append, nil_append] at htext ⊢
        exact htext
      · rw [serializePairsPretty, serializeJsonString_eq, hout, hout', endLine,
          if_neg (by simpa using hla), indent, tabs, hco]
        simp only [append_assoc, cons_append, nil_append]

end

section

variable (size : SizeType) {v : JsonValue}

theorem parseJson_text {t : Text} (h : JsonText v t) : parseJson size t =
    .ok (if v.isLiteral || v.literalFree then some v else none) := by
  have hfo : Follows [] := fun c hc => by cases hc
  have hpa := h.parse size .nil hfo (Nat.le_refl (2 * t.length + 1))
  rw [append_nil, nil_append] at hpa
  rw [parseJson, hpa, outcome]
  cases v.isLiteral <;> cases v.literalFree <;> rfl

theorem serializeJsonValue_text (h : v.Valid) : JsonText v (serializeJsonValue v) := by
  obtain ⟨t, ht, hout⟩ := serializeJsonValueTo_text v h
  rw [serializeJsonValue, hout]
  exact ht

theorem serializeJsonValuePretty_text (h : v.Valid) : JsonText v (serializeJsonValuePretty v) := by
  obtain ⟨t, ht, hout⟩ := serializeJsonValuePrettyImpl_text v h 0
  rw [serializeJsonValuePretty, hout]
  exact ht

def RoundTrips (serialize : JsonValue → Text) (v : JsonValue) : Prop :=
  ∃ v', parseJson size (serialize v) = .ok (some v') ∧ v'.equal v = true

theorem serialized_roundTrips_iff {serialize : JsonValue → Text} (hv : v.Valid)
    (h : JsonText v (serialize v)) :
    RoundTrips size serialize v ↔ v.isLiteral = true ∨ v.literalFree = true := by
  rw [← Bool.or_eq_true]
  have hpa := parseJson_text size h
  constructor
  · rintro ⟨v', hv', -⟩
    rw [hpa] at hv'
    by_contra hnei
    rw [if_neg hnei] at hv'
    cases hv'
  · intro heit
    rw [if_pos heit] at hpa
    exact ⟨v, hpa, JsonValue.equal_self v hv⟩

/-- A value is restored from its texts if and only if it is a literal itself or has no literals
inside. -/
theorem json_roundTrip {v : JsonValue} (hv : v.Valid) :
    RoundTrips size serializeJsonValue v ∧ RoundTrips size serializeJsonValuePretty v ↔
      v.isLiteral = true ∨ v.literalFree = true := by
  rw [serialized_roundTrips_iff size hv (serializeJsonValue_text hv),
    serialized_roundTrips_iff size hv (serializeJsonValuePretty_text hv), and_self_iff]

end

/-- The value `["a",{"k":1}]`. -/
theorem json_roundTrip_nested :
    (JsonValue.array [.string (asciiText "a"), .object [(asciiText "k", .number 0x3FF0000000000000)]]).Valid ∧
      RoundTrips .bytes8 serializeJsonValuePretty
        (.array [.string (asciiText "a"), .object [(asciiText "k", .number 0x3FF0000000000000)]]) := by
  have hvalid : (JsonValue.array
      [.string (asciiText "a"), .object [(asciiText "k", .number 0x3FF0000000000000)]]).Valid :=
    ⟨trivial, ⟨pairwise_singleton _ _, ⟨by decide, by decide⟩, trivial⟩, trivial⟩
  exact ⟨hvalid, ((json_roundTrip .bytes8 hvalid).2 (.inr rfl)).2⟩

/-- The value `[null]`: the text `null` is still there when a comma or a bracket is expected. -/
theorem json_roundTrip_array_null :
    (JsonValue.array [.null]).Valid ∧ ¬RoundTrips .bytes8 serializeJsonValue (.array [.null]) ∧
      ¬RoundTrips .bytes8 serializeJsonValuePretty (.array [.null]) := by
  refine ⟨⟨trivial, trivial⟩, ?_, ?_⟩
  · rintro ⟨v, hparse, -⟩
    cases hparse
  · rintro ⟨v, hparse, -⟩
    cases hparse

end USprache.BuildSystem
