import USprache.CodeBuilder.DeclaredTypes
import USprache.LexSynt.MacroHygiene
import USprache.Library.PrefixCode

/-!
# Reading type names back

Every part of the text of a type shows where it ends, up to one thing: the name of a class
is the start of the text of a class made from a template of that name.  So the texts are read
in one way when no `I` comes behind them, and none ever does.
-/

namespace USprache.CodeBuilder

open LexSynt Library Encoding List Option

/-! ## Numbers and names -/

def IsDigit (b : UInt8) : Prop := '0'.toNat ≤ b.toNat ∧ b.toNat ≤ '9'.toNat

instance (b : UInt8) : Decidable (IsDigit b) := inferInstanceAs (Decidable (_ ∧ _))

theorem decimal_decodes :
    Decodes ManglerState.decimal (fun _ => True) (fun rest => ∀ b ∈ rest.head?, ¬IsDigit b) := by
  intro n n' rest rest' _ _ hrs hrs' heq
  have hds : ∀ n, ∀ b ∈ decimal n, IsDigit b := fun _ _ => decimal_mem
  obtain ⟨hn, hr⟩ := append_inj_of_all (hds n) (hds n') hrs hrs' heq
  exact ⟨decimal_injective hn, hr⟩

theorem decimal_head (n : Nat) : ∃ b rest, ManglerState.decimal n = b :: rest ∧ IsDigit b := by
  have hne : decimal n ≠ [] := by
    rw [decimal, ne_eq, map_eq_nil_iff]
    exact Nat.toDigits_ne_nil
  obtain ⟨b, rest, hdec⟩ := exists_cons_of_ne_nil hne
  have hmem : b ∈ decimal n := hdec ▸ mem_cons_self
  exact ⟨b, rest, hdec, decimal_mem hmem⟩

def lengthPrefixed (name : Text) : Text := ManglerState.decimal name.length ++ name

def StartsName (name : Text) : Prop := ∃ b rest, name = b :: rest ∧ ¬IsDigit b

theorem lengthPrefixed_decodes : Decodes lengthPrefixed StartsName (fun _ => True) := by
  rintro name name' rest rest' ⟨b, t, rfl, hb⟩ ⟨b', t', rfl, hb'⟩ _ _ heq
  simp only [lengthPrefixed, append_assoc] at heq
  obtain ⟨hlen, heq⟩ := decimal_decodes trivial trivial (by simpa using hb) (by simpa using hb') heq
  exact append_inj heq hlen

theorem lengthPrefixed_head (name rest : Text) :
    ∃ b r', lengthPrefixed name ++ rest = b :: r' ∧ IsDigit b := by
  obtain ⟨b, t, hdec, hb⟩ := decimal_head name.length
  exact ⟨b, t ++ name ++ rest, by rw [lengthPrefixed, hdec]; rfl, hb⟩

def reservedNames : List Text :=
  [asciiText "_RP", asciiText "_RR", asciiText "_RIR", asciiText "unsafe", Keyword.tup_.text,
    Keyword.generator_.text, Keyword.async_.text]

theorem reservedNames_startsName : ∀ name ∈ reservedNames, StartsName name := by
  simp only [reservedNames, forall_mem_cons, not_mem_nil, false_implies, implies_true, and_true]
  refine ⟨?_, ?_, ?_, ?_, ?_, ?_, ?_⟩ <;> exact ⟨_, _, rfl, by decide⟩

variable {name : Text} {α : Type} {encode : α → Encoding} {rest : Text} {c : Char}

theorem identifier_start (h : IsIdentifier name) :
    ∃ b rest, name = b :: rest ∧ ¬IsDigit b ∧ b ≠ ascii '_' := by
  have hnine : '9'.toNat = 57 := rfl
  have hbar : (ascii '_').toNat = 95 := rfl
  obtain ⟨b, rest, rfl, hb⟩ := isIdentifier_head h
  have hrg : 57 < b.toNat ∧ b.toNat ≠ 95 := by
    rcases hb with hb | hb
    · omega
    · have hlo : 'a'.toNat = 97 ∧ 'z'.toNat = 122 := ⟨rfl, rfl⟩
      have hup : 'A'.toNat = 65 ∧ 'Z'.toNat = 90 := ⟨rfl, rfl⟩
      simp only [isIdentifierStartChar, Bool.or_eq_true, Bool.and_eq_true, decide_eq_true_eq] at hb
      omega
  refine ⟨b, rest, rfl, fun hd => ?_, fun heq => ?_⟩
  · have := hd.2
    omega
  · rw [heq] at hrg
    omega

theorem IsDeclaredName.startsName (h : IsDeclaredName name) : StartsName name := by
  rcases h with ⟨hid, -⟩ | ⟨rest, rfl⟩
  · obtain ⟨b, rest, rfl, hb, -⟩ := identifier_start hid
    exact ⟨b, rest, rfl, hb⟩
  · exact ⟨_, _, rfl, by decide⟩

theorem IsDeclaredName.not_reserved (h : IsDeclaredName name) : name ∉ reservedNames := by
  intro hmem
  have hcs : (∃ rest, name = ascii '_' :: ascii 'R' :: rest) ∨ IsKeyword name := by
    simp only [reservedNames, mem_cons, not_mem_nil, or_false] at hmem
    rcases hmem with rfl | rfl | rfl | rfl | rfl | rfl | rfl
    · exact .inl ⟨_, rfl⟩
    · exact .inl ⟨_, rfl⟩
    · exact .inl ⟨_, rfl⟩
    · exact .inr ⟨.unsafe_, rfl⟩
    · exact .inr ⟨.tup_, rfl⟩
    · exact .inr ⟨.generator_, rfl⟩
    · exact .inr ⟨.async_, rfl⟩
  rcases h with ⟨hid, hkw⟩ | ⟨rest, rfl⟩
  · rcases hcs with ⟨rest, rfl⟩ | hn
    · obtain ⟨b, r', heq, -, hb⟩ := identifier_start hid
      exact hb (cons.inj heq).1.symm
    · exact hkw hn
  · rcases hcs with ⟨r', heq⟩ | ⟨kw, hn⟩
    · exact absurd (cons.inj (cons.inj heq).2).1 (by decide)
    · obtain ⟨b, r', heq, -, hb⟩ := identifier_start kw.isIdentifier
      exact hb (cons.inj (heq.symm.trans hn)).1

/-! ## Reference notation -/

theorem literal_decodes (t : FundamentalType) :
    Decodes (fun n => (encodeLiteral t n).text) (fun _ => True) (fun _ => True) := by
  intro n n' rest r' _ _ _ _ heq
  simp only [encodeLiteral, text_append, text_push, append_assoc] at heq
  have hdec := append_cancel_left (append_cancel_left heq)
  have hend : ∀ rest, ∀ b ∈ ([ascii 'E'] ++ rest).head?, ¬IsDigit b := by
    rintro rest b ⟨⟩
    decide
  obtain ⟨rfl, hrs⟩ := decimal_decodes trivial trivial (hend rest) (hend r') hdec
  exact ⟨rfl, append_cancel_left hrs⟩

theorem paramReference_decodes :
    Decodes (fun r => (encodeParamReference r).text) (fun _ => True) (fun _ => True) := by
  rintro ⟨first, second⟩ ⟨first', second'⟩ rest rest' _ _ _ _ heq
  simp only [encodeParamReference, text_append, append_assoc] at heq
  obtain ⟨hfst, heq⟩ := literal_decodes _ trivial trivial trivial trivial (append_cancel_left heq)
  obtain ⟨hsnd, heq⟩ := literal_decodes _ trivial trivial trivial trivial heq
  have hfst : first = first' := UInt8.toNat_inj.1 (Nat.add_right_cancel hfst)
  have hsnd : second = second' := by
    have hbar : '_'.toNat = 95 := rfl
    have ha : 'a'.toNat = 97 := rfl
    split at hsnd <;> split at hsnd
    · next h h' => rw [h, h']
    · omega
    · omega
    · exact UInt8.toNat_inj.1 (Nat.add_right_cancel hsnd)
  rw [hfst, hsnd]
  exact ⟨rfl, append_cancel_left heq⟩

theorem pollution_decodes :
    Decodes (fun r => (encodePollution r).text) (fun _ => True) (fun _ => True) := by
  rintro ⟨dst, src⟩ ⟨dst', src'⟩ rest rest' _ _ _ _ heq
  simp only [encodePollution, text_append, append_assoc] at heq
  obtain ⟨rfl, hsrc⟩ :=
    paramReference_decodes trivial trivial trivial trivial (append_cancel_left heq)
  obtain ⟨rfl, hrs⟩ := paramReference_decodes trivial trivial trivial trivial hsrc
  exact ⟨rfl, append_cancel_left hrs⟩

@[simp] theorem text_concat_map (encode : α → Encoding) (xs : List α) :
    (concat (xs.map encode)).text = xs.flatMap (fun a => (encode a).text) := by
  induction xs with
  | nil => rfl
  | cons a xs ih =>
    rw [flatMap_cons, ← ih]
    exact text_append _ _

def StartsWith (c : Char) (text : Text) : Prop := text.head? = some (ascii c)

instance (c : Char) (text : Text) : Decidable (StartsWith c text) :=
  inferInstanceAs (Decidable (_ = _))

theorem braces_decodes (hdec : Decodes (fun a => (encode a).text) (fun _ => True) (fun _ => True))
    (hst : ∀ a, StartsWith 'i' (encode a).text) :
    Decodes (flatMap (fun a => (encode a).text)) (fun _ => True) (StartsWith 'E') := by
  have hlist := hdec.list (StartsWith 'E') (fun a rest _ => ⟨trivial, ?_⟩) (fun _ _ => trivial)
  · exact hlist.mono (fun _ _ _ _ => trivial) (fun _ h => h)
  · intro hE
    rw [StartsWith, head?_append, hst a] at hE
    exact absurd (some.inj hE) (by decide)

theorem tagReferences_decodes :
    Decodes (fun r => (encodeTagReferences r).text) (fun _ => True) (fun _ => True) := by
  intro r r' rest rest' _ _ _ _ heq
  simp only [encodeTagReferences, text_append, text_concat_map,
    append_assoc] at heq
  obtain ⟨rfl, hrs⟩ := braces_decodes paramReference_decodes (fun _ => rfl) trivial trivial
    (by exact rfl) (by exact rfl) (append_cancel_left heq)
  exact ⟨rfl, append_cancel_left hrs⟩

theorem text_notationPart (name : String) (encode : α → Encoding) (xs : List α) :
    (unlessEmpty (fun xs => encodeNotationAsType name (xs.map encode)) xs).text =
      if xs ≠ [] then
        lengthPrefixed (asciiText name) ++
          (asciiText "IXil" ++ (xs.flatMap (fun a => (encode a).text) ++ asciiText "EEE"))
      else [] := by
  have hpre : (encodeNotationAsType name (xs.map encode)).text = lengthPrefixed (asciiText name) ++
        (asciiText "IXil" ++ (xs.flatMap (fun a => (encode a).text) ++ asciiText "EEE")) := by
    simp only [encodeNotationAsType, text_node, text_append, text_pushLengthPrefixed,
      text_concat_map, append_assoc, lengthPrefixed]
    rfl
  cases xs with
  | nil => rfl
  | cons a xs =>
    exact hpre

theorem notation_decodes {name : String}
    (hdec : Decodes (fun a => (encode a).text) (fun _ => True) (fun _ => True))
    (hst : ∀ a, StartsWith 'i' (encode a).text) :
    Decodes (fun xs : List α =>
        (unlessEmpty (fun xs => encodeNotationAsType name (xs.map encode)) xs).text)
      (fun _ => True) (fun rest => ¬lengthPrefixed (asciiText name) <+: rest) := by
  intro xs elements' rest rest' _ _ hrs hrs' heq
  simp only [text_notationPart] at heq
  rcases optional_word hrs hrs' heq with ⟨-, -, heq⟩ | ⟨hnil, hnil', heq⟩
  · simp only [append_assoc] at heq
    obtain ⟨rfl, hrs⟩ := braces_decodes hdec hst trivial trivial (by exact rfl)
      (by exact rfl) (append_cancel_left heq)
    exact ⟨rfl, append_cancel_left hrs⟩
  · rw [not_not.1 hnil, not_not.1 hnil']
    exact ⟨rfl, heq⟩

theorem not_isPrefix_lengthPrefixed {other : Text} (hn : name ∈ reservedNames)
    (ho : StartsName other) (hne : name ≠ other) (rest : Text) :
    ¬lengthPrefixed name <+: lengthPrefixed other ++ rest := by
  rintro ⟨rest', heq⟩
  exact hne (lengthPrefixed_decodes (reservedNames_startsName name hn) ho trivial trivial heq).1

theorem not_isPrefix_of_startsWith (hrs : StartsWith c rest)
    (hc : ¬IsDigit (ascii c)) : ¬lengthPrefixed name <+: rest := by
  rintro ⟨r', heq⟩
  obtain ⟨b, t, hb, hd⟩ := lengthPrefixed_head name r'
  rw [← heq, hb] at hrs
  cases hrs
  exact hc hd

theorem not_isPrefix_notationPart {other : String} {xs : List α} (hn : name ∈ reservedNames)
    (ho : asciiText other ∈ reservedNames) (hne : name ≠ asciiText other)
    (hrs : ¬lengthPrefixed name <+: rest) :
    ¬lengthPrefixed name <+: (unlessEmpty
      (fun xs => encodeNotationAsType other (xs.map encode)) xs).text ++ rest := by
  rw [text_notationPart]
  split
  · rw [append_assoc]
    exact not_isPrefix_lengthPrefixed hn (reservedNames_startsName _ ho) hne _
  · exact hrs

/-! ## Parameters -/

def typeText (type : LangType) : Text := (encodeTypeName type).text

theorem text_encodeTypeNames (ts : List LangType) :
    (encodeTypeNames ts).text = ts.flatMap typeText := by
  induction ts with
  | nil => rw [encodeTypeNames]; rfl
  | cons type ts ih => rw [encodeTypeNames, text_append, ih]; rfl

def NotArgs (rest : Text) : Prop := ¬StartsWith 'I' rest

/-- The parts of a function type behind its parameters start with one of these names. -/
def notationNames : List Text :=
  [asciiText "_RP", asciiText "_RR", asciiText "_RIR", asciiText "unsafe"]

structure TypeStart (text : Text) : Prop where
  head : ∃ b rest, text = b :: rest ∧ b ∉ asciiText "IELRKFU"
  not_notationPart : ∀ name ∈ notationNames, ∀ rest, ¬lengthPrefixed name <+: text ++ rest

structure Readable (Valid : LangType → Prop) : Prop where
  decodes : Decodes typeText Valid NotArgs
  start : ∀ type, Valid type → TypeStart (typeText type)
  void : ∀ type, Valid type → StartsWith 'v' (typeText type) → type = .fundamental .void_

theorem TypeStart.not_startsWith {tx : Text} (h : TypeStart tx)
    (hc : ascii c ∈ asciiText "IELRKFU") (rest : Text) : ¬StartsWith c (tx ++ rest) := by
  obtain ⟨b, t, rfl, hb⟩ := h.head
  intro hst
  exact hb (some.inj hst ▸ hc)

def paramText (param : FunctionParam) : Text := (encodeFunctionParam param).text

def markedParamText (param : FunctionParam) : Text :=
  (if param.isVoidValue then node (pushChar 'K' ++ encodeFunctionParam param)
    else encodeFunctionParam param).text

def BehindParams (rest : Text) : Prop :=
  StartsWith 'E' rest ∨ ∃ name ∈ notationNames, lengthPrefixed name <+: rest

theorem not_startsWith_of_behindParams (h : BehindParams rest)
    (hE : ascii c ≠ ascii 'E') (hd : ¬IsDigit (ascii c)) : ¬StartsWith c rest := by
  intro hc
  rcases h with h | ⟨name, -, hn⟩
  · exact hE (some.inj (hc.symm.trans h))
  · exact not_isPrefix_of_startsWith hc hd hn

def paramsText (params : List FunctionParam) : Text :=
  (encodeFunctionParamsList params ++ (if params.isEmpty then pushChar 'v' else nothing)).text

theorem text_encodeFunctionParamsList (params : List FunctionParam) :
    (encodeFunctionParamsList params).text = params.flatMap markedParamText := by
  induction params with
  | nil => rw [encodeFunctionParamsList]; rfl
  | cons param params ih => rw [encodeFunctionParamsList, text_append, ih]; rfl

theorem paramsText_cons (param : FunctionParam) (params : List FunctionParam) :
    paramsText (param :: params) = (param :: params).flatMap markedParamText := by
  rw [paramsText, text_append, text_encodeFunctionParamsList]
  exact append_nil _

section Params

variable {Valid : LangType → Prop} (hreadable : Readable Valid)

include hreadable

theorem typeTexts_decodes :
    Decodes (flatMap typeText) (fun ts => ∀ t ∈ ts, Valid t) (StartsWith 'E') := by
  refine hreadable.decodes.list _ (fun t rest hty => ⟨?_, ?_⟩) (fun rest hrs hI => ?_)
  · exact (hreadable.start t hty).not_startsWith (by decide) rest
  · exact (hreadable.start t hty).not_startsWith (by decide) rest
  · exact absurd (some.inj (hrs.symm.trans hI)) (by decide)

theorem param_decodes : Decodes paramText (fun param => Valid param.type) NotArgs := by
  rintro ⟨t, kind⟩ ⟨t', kind'⟩ rest rest' hty hty' hrs hrs' heq
  have hR := (hreadable.start t hty).not_startsWith (c := 'R') (by decide)
  have hR' := (hreadable.start t' hty').not_startsWith (c := 'R') (by decide)
  have hK := (hreadable.start t hty).not_startsWith (c := 'K') (by decide)
  have hK' := (hreadable.start t' hty').not_startsWith (c := 'K') (by decide)
  have hsame : typeText t ++ rest = typeText t' ++ rest' → kind = kind' →
      FunctionParam.mk t kind = .mk t' kind' ∧ rest = rest' := by
    rintro htys rfl
    obtain ⟨rfl, hrs⟩ := hreadable.decodes hty hty' hrs hrs' htys
    exact ⟨rfl, hrs⟩
  simp only [paramText, encodeFunctionParam] at heq
  cases kind with
  | value =>
    cases kind' with
    | value => exact hsame heq rfl
    | referenceMut | referenceImut => exact absurd (congrArg head? heq) (hR rest)
  | referenceMut =>
    cases kind' with
    | value => exact absurd (congrArg head? heq.symm) (hR' rest')
    | referenceMut =>
      simp only [encodeWithValueType, text_node, text_append, append_assoc] at heq
      exact hsame (append_cancel_left heq) rfl
    | referenceImut =>
      simp only [encodeWithValueType, text_node, text_append, append_assoc] at heq
      exact absurd (congrArg head? (append_cancel_left heq)) (hK rest)
  | referenceImut =>
    cases kind' with
    | value => exact absurd (congrArg head? heq.symm) (hR' rest')
    | referenceMut =>
      simp only [encodeWithValueType, text_node, text_append, append_assoc] at heq
      exact absurd (congrArg head? (append_cancel_left heq.symm)) (hK' rest')
    | referenceImut =>
      simp only [encodeWithValueType, text_node, text_append, append_assoc] at heq
      exact hsame (append_cancel_left (append_cancel_left heq)) rfl

variable {param : FunctionParam}

theorem paramText_head (hp : Valid param.type) :
    ∃ b rest, paramText param = b :: rest ∧ b ∉ asciiText "IELKFU" := by
  obtain ⟨t, kind⟩ := param
  cases kind with
  | value =>
    obtain ⟨b, rest, ht, hb⟩ := (hreadable.start t hp).head
    refine ⟨b, rest, ht, fun hmem => hb ?_⟩
    exact (show asciiText "IELKFU" ⊆ asciiText "IELRKFU" by decide) hmem
  | referenceMut | referenceImut => exact ⟨_, _, rfl, by decide⟩

theorem markedParam_decodes : Decodes markedParamText (fun param => Valid param.type) NotArgs := by
  intro param param' rest r' hp hp' hrs hrs' heq
  have hvoid : ∀ {param : FunctionParam}, param.isVoidValue = true →
      param = .mk (.fundamental .void_) .value := by
    intro param h
    unfold FunctionParam.isVoidValue at h
    split at h
    · rfl
    · cases h
  have hK : ∀ {param : FunctionParam}, Valid param.type → ∀ rest r',
      paramText param ++ rest ≠ ascii 'K' :: r' := by
    intro param hp rest r' heq
    obtain ⟨b, t, ht, hb⟩ := paramText_head hreadable hp
    rw [ht] at heq
    exact hb ((cons.inj heq).1 ▸ by decide)
  unfold markedParamText at heq
  by_cases h : param.isVoidValue = true <;> by_cases h' : param'.isVoidValue = true
  · rw [hvoid h, hvoid h'] at heq
    rw [hvoid h, hvoid h']
    exact ⟨rfl, append_cancel_left heq⟩
  · rw [if_pos h, if_neg h'] at heq
    exact absurd heq.symm (hK hp' _ _)
  · rw [if_neg h, if_pos h'] at heq
    exact absurd heq (hK hp _ _)
  · rw [if_neg h, if_neg h'] at heq
    exact param_decodes hreadable hp hp' hrs hrs' heq

theorem markedParamText_cases (hp : Valid param.type) :
    (∃ c ∈ ['K', 'R'], ∃ rest, markedParamText param = ascii c :: rest) ∨
      markedParamText param = typeText param.type ∧ ¬StartsWith 'v' (markedParamText param) := by
  obtain ⟨t, kind⟩ := param
  unfold markedParamText
  by_cases h : (FunctionParam.mk t kind).isVoidValue = true
  · rw [if_pos h]
    exact .inl ⟨'K', by decide, _, rfl⟩
  · rw [if_neg h]
    cases kind with
    | value =>
      refine .inr ⟨rfl, fun hv => h ?_⟩
      obtain rfl := hreadable.void t hp hv
      rfl
    | referenceMut | referenceImut => exact .inl ⟨'R', by decide, _, rfl⟩

theorem markedParamText_starts (hp : Valid param.type) (rest : Text) :
    ¬StartsWith 'I' (markedParamText param ++ rest) ∧
      ¬StartsWith 'v' (markedParamText param ++ rest) ∧
      ¬BehindParams (markedParamText param ++ rest) := by
  rcases markedParamText_cases hreadable hp with ⟨c, hc, t, ht⟩ | ⟨ht, hv⟩
  · have hst : StartsWith c (markedParamText param ++ rest) := by rw [ht]; rfl
    have hne : ∀ d ∈ ['I', 'v', 'E'], ¬StartsWith d (markedParamText param ++ rest) := by
      intro d hd hd'
      have hbs : ascii c ≠ ascii d := by
        simp only [mem_cons, not_mem_nil, or_false] at hc hd
        rcases hc with rfl | rfl <;> rcases hd with rfl | rfl | rfl <;> decide
      exact hbs (some.inj (hst.symm.trans hd'))
    refine ⟨hne _ (by decide), hne _ (by decide), ?_⟩
    rintro (hE | ⟨name, -, hn⟩)
    · exact hne _ (by decide) hE
    · have hdigit : ¬IsDigit (ascii c) := by
        simp only [mem_cons, not_mem_nil, or_false] at hc
        rcases hc with rfl | rfl <;> decide
      exact not_isPrefix_of_startsWith hst hdigit hn
  · have hst := hreadable.start _ hp
    obtain ⟨b, t, hhd, -⟩ := hst.head
    refine ⟨?_, ?_, ?_⟩
    · rw [ht]
      exact hst.not_startsWith (by decide) rest
    · rw [ht, hhd] at hv ⊢
      exact hv
    · rw [ht]
      rintro (hE | ⟨name, hn, hpre⟩)
      · exact hst.not_startsWith (by decide) rest hE
      · exact hst.not_notationPart name hn rest hpre

theorem params_decodes :
    Decodes paramsText (fun params => ∀ param ∈ params, Valid param.type) BehindParams := by
  have hlist : Decodes (flatMap markedParamText) (fun params => ∀ param ∈ params, Valid param.type)
      BehindParams := by
    refine (markedParam_decodes hreadable).list _ (fun param rest hp => ?_) (fun rest hrs => ?_)
    · have hsts := markedParamText_starts hreadable hp rest
      exact ⟨hsts.1, hsts.2.2⟩
    · exact not_startsWith_of_behindParams hrs (by decide) (by decide)
  have hv : ∀ {param : FunctionParam} {params : List FunctionParam}, Valid param.type →
      ∀ rest r', paramsText (param :: params) ++ rest ≠ ascii 'v' :: r' := by
    intro param params hp rest r' heq
    rw [paramsText_cons, flatMap_cons, append_assoc] at heq
    exact (markedParamText_starts hreadable hp _).2.1 (congrArg head? heq)
  intro params params' rest r' hps hps' hrs hrs' heq
  cases params with
  | nil =>
    cases params' with
    | nil => exact ⟨rfl, (cons.inj heq).2⟩
    | cons param' params' => exact absurd heq.symm (hv (hps' _ mem_cons_self) _ _)
  | cons param params =>
    cases params' with
    | nil => exact absurd heq (hv (hps _ mem_cons_self) _ _)
    | cons param' params' =>
      rw [paramsText_cons, paramsText_cons] at heq
      exact hlist hps hps' hrs hrs' heq

end Params

/-! ## Function types -/

theorem callingConvention_decodes :
    Decodes (fun convention => (encodeCallingConvention convention).text ++ [ascii 'F'])
      (fun _ => True) (fun _ => True) := by
  apply Decodes.of_prefixFree
  intro convention convention'
  cases convention <;> cases convention' <;> decide

/-- The parts of a function type behind its parameters. -/
def notationText (isUnsafe : Bool) (returnReferences : List ParamReference)
    (returnInnerReferences : List (List ParamReference))
    (referencesPollution : List ReferencePollution) : Text :=
  (unlessEmpty encodeReferencePollutionAsType referencesPollution).text ++
    ((unlessEmpty encodeReturnReferencesAsType returnReferences).text ++
      ((unlessEmpty encodeReturnInnerReferencesAsType returnInnerReferences).text ++
        ((if isUnsafe then lengthPrefixed (asciiText "unsafe") else []) ++ [ascii 'E'])))

theorem not_isPrefix_unsafePart {name : Text} (hn : name ∈ reservedNames)
    (hne : name ≠ asciiText "unsafe") (isUn : Bool) (rest : Text) :
    ¬lengthPrefixed name <+:
      (if isUn then lengthPrefixed (asciiText "unsafe") else []) ++ ascii 'E' :: rest := by
  cases isUn with
  | false => exact not_isPrefix_of_startsWith (c := 'E') rfl (by decide)
  | true =>
    exact not_isPrefix_lengthPrefixed hn (reservedNames_startsName _ (by decide)) hne _

theorem notationText_decodes {isUn isUn' : Bool} {retRefs retRefs' : List ParamReference}
    {retInnRefs retInnRefs' : List (List ParamReference)}
    {refsPollution refsPollution' : List ReferencePollution} {rest r' : Text}
    (heq : notationText isUn retRefs retInnRefs refsPollution ++ rest =
      notationText isUn' retRefs' retInnRefs' refsPollution' ++ r') :
    isUn = isUn' ∧ retRefs = retRefs' ∧ retInnRefs = retInnRefs' ∧ refsPollution = refsPollution' ∧
      rest = r' := by
  simp only [notationText, append_assoc] at heq
  have hin : ∀ {name : Text}, name ∈ reservedNames → name ≠ asciiText "unsafe" →
      name ≠ asciiText "_RIR" → ∀ inner isUn rest, ¬lengthPrefixed name <+:
        (unlessEmpty encodeReturnInnerReferencesAsType inner).text ++
          ((if isUn = true then lengthPrefixed (asciiText "unsafe") else []) ++
            ascii 'E' :: rest) := by
    intro name hn hisUns hRIR inner isUn rest
    exact not_isPrefix_notationPart hn (by decide) hRIR (not_isPrefix_unsafePart hn hisUns isUn rest)
  have hret : ∀ {name : Text}, name ∈ reservedNames → name ≠ asciiText "unsafe" →
      name ≠ asciiText "_RIR" → name ≠ asciiText "_RR" → ∀ refs inner isUn rest,
        ¬lengthPrefixed name <+: (unlessEmpty encodeReturnReferencesAsType refs).text ++
          ((unlessEmpty encodeReturnInnerReferencesAsType inner).text ++
            ((if isUn = true then lengthPrefixed (asciiText "unsafe") else []) ++
              ascii 'E' :: rest)) := by
    intro name hn hisUns hRIR hRR refs inner isUn rest
    exact not_isPrefix_notationPart hn (by decide) hRR (hin hn hisUns hRIR inner isUn rest)
  obtain ⟨hpol, heq⟩ := notation_decodes pollution_decodes (fun _ => rfl) trivial trivial
    (hret (by decide) (by decide) (by decide) (by decide) _ _ _ _)
    (hret (by decide) (by decide) (by decide) (by decide) _ _ _ _) heq
  obtain ⟨hrefs, heq⟩ := notation_decodes paramReference_decodes (fun _ => rfl) trivial trivial
    (hin (by decide) (by decide) (by decide) _ _ _)
    (hin (by decide) (by decide) (by decide) _ _ _) heq
  obtain ⟨hinRefs, heq⟩ := notation_decodes tagReferences_decodes (fun _ => rfl) trivial trivial
    (not_isPrefix_unsafePart (by decide) (by decide) _ _)
    (not_isPrefix_unsafePart (by decide) (by decide) _ _) heq
  have hend : ∀ rest, ¬lengthPrefixed (asciiText "unsafe") <+: ascii 'E' :: rest :=
    fun rest => not_isPrefix_of_startsWith (c := 'E') rfl (by decide)
  obtain ⟨hisUns, heq⟩ := optional_flag (hend rest) (hend r') heq
  exact ⟨hisUns, hrefs, hinRefs, hpol, (cons.inj heq).2⟩

theorem behindParams_notationText (isUn : Bool) (retRefs : List ParamReference)
    (retInnRefs : List (List ParamReference))
    (refsPollution : List ReferencePollution) (rest : Text) :
    BehindParams (notationText isUn retRefs retInnRefs refsPollution ++ rest) := by
  have hpart : ∀ {α : Type} {name : String} {encode : α → Encoding} {xs : List α} {rest : Text},
      asciiText name ∈ notationNames → BehindParams rest →
        BehindParams ((unlessEmpty (fun xs => encodeNotationAsType name (xs.map encode))
          xs).text ++ rest) := by
    intro α name encode xs rest hn hrs
    rw [text_notationPart]
    split
    · rw [append_assoc]
      exact .inr ⟨_, hn, prefix_append _ _⟩
    · exact hrs
  simp only [notationText, append_assoc]
  refine hpart (by decide) (hpart (by decide) (hpart (by decide) ?_))
  cases isUn with
  | false => exact .inl rfl
  | true => exact .inr ⟨asciiText "unsafe", by decide, by
      exact prefix_append _ _⟩

def FunctionType.Valid (Valid : LangType → Prop) : FunctionType → Prop
  | .mk params returned .. => (∀ param ∈ params, Valid param.type) ∧ Valid returned.type

def functionText (functionType : FunctionType) : Text := (encodeFunctionTypeName functionType).text

theorem functionText_eq (params : List FunctionParam) (ret : FunctionParam) (isUn : Bool)
    (callingConvention : CallingConvention) (retRefs : List ParamReference)
    (retInnRefs : List (List ParamReference))
    (refsPollution : List ReferencePollution) (rest : Text) :
    functionText (.mk params ret isUn callingConvention retRefs retInnRefs refsPollution) ++ rest =
      ((encodeCallingConvention callingConvention).text ++ [ascii 'F']) ++
        (paramText ret ++ (paramsText params ++ (notationText isUn retRefs retInnRefs refsPollution ++
            rest))) := by
  have hisUns : (if isUn = true then node (pushLengthPrefixed (asciiText "unsafe")) else nothing).text =
      if isUn = true then lengthPrefixed (asciiText "unsafe") else [] := by
    cases isUn <;> simp [lengthPrefixed]
  simp only [functionText, encodeFunctionTypeName, text_node, text_append, text_pushChar, hisUns,
    paramText, paramsText, notationText, append_assoc]

theorem function_decodes {Valid : LangType → Prop} (hreadable : Readable Valid) :
    Decodes functionText (FunctionType.Valid Valid) (fun _ => True) := by
  rintro ⟨params, returned, isUn, convention, refs, inner, pollution⟩
    ⟨params', returned', isUnsafe', convention', references', inner', pollution'⟩ rest rest'
    hok hok' _ _ heq
  rw [functionText_eq, functionText_eq] at heq
  obtain ⟨rfl, hretd⟩ := callingConvention_decodes trivial trivial trivial trivial heq
  have hps : ∀ params isUn refs inner pollution, ∀ rest, (∀ param ∈ params, Valid param.type) →
        NotArgs (paramsText params ++ (notationText isUn refs inner pollution ++ rest)) := by
    intro params isUn refs inner pollution rest hok
    cases params with
    | nil => exact fun h => absurd (some.inj h) (by decide)
    | cons param params =>
      rw [paramsText_cons, flatMap_cons, append_assoc]
      exact (markedParamText_starts hreadable (hok param mem_cons_self) _).1
  obtain ⟨rfl, hpsEq⟩ := param_decodes hreadable hok.2 hok'.2 (hps _ _ _ _ _ _ hok.1)
    (hps _ _ _ _ _ _ hok'.1) hretd
  obtain ⟨rfl, hnotPart⟩ := params_decodes hreadable hok.1 hok'.1
    (behindParams_notationText _ _ _ _ _) (behindParams_notationText _ _ _ _ _) hpsEq
  obtain ⟨rfl, rfl, rfl, rfl, hrs⟩ := notationText_decodes hnotPart
  exact ⟨rfl, hrs⟩

/-! ## Coroutines -/

def CoroutineTypeDescription.Valid (Valid : LangType → Prop) : CoroutineTypeDescription → Prop
  | .mk _ returned .. => Valid returned.type

def CoroutineTypeDescription.kind : CoroutineTypeDescription → CoroutineKind
  | .mk kind .. => kind

def coroutineArgsText : CoroutineTypeDescription → Text
  | .mk _ returned returnReferences returnInnerReferences innerReferences nonSync =>
    ascii 'I' :: (paramText returned ++ ((if nonSync then (encodeLiteral .bool_ 1).text else []) ++
        (innerReferences.flatMap (fun inner => (encodeLiteral .u32_ inner.toNat).text) ++
          notationText false returnReferences returnInnerReferences [])))

theorem text_encodeCoroutineType (desc : CoroutineTypeDescription) :
    (encodeCoroutineType desc).text =
      lengthPrefixed desc.kind.keyword.text ++ coroutineArgsText desc := by
  obtain ⟨kind, returned, references, innerReferences, inners, nonSync⟩ := desc
  have hnonSy : (if nonSync = true then encodeLiteral .bool_ 1 else nothing).text =
      if nonSync = true then (encodeLiteral .bool_ 1).text else [] := by
    cases nonSync <;> rfl
  simp only [encodeCoroutineType, text_node, text_append, text_pushLengthPrefixed,
    text_concat_map, hnonSy, append_assoc, lengthPrefixed]
  rfl

theorem innerReferences_decodes :
    Decodes (flatMap (fun inner => (encodeLiteral .u32_ (InnerReferenceKind.toNat inner)).text))
      (fun _ => True) (fun rest => ¬StartsWith 'L' rest) := by
  have hone : Decodes (fun inner => (encodeLiteral .u32_ (InnerReferenceKind.toNat inner)).text)
      (fun _ => True) (fun _ => True) := by
    intro inner inner' rest rest' _ _ _ _ heq
    obtain ⟨hin, hrs⟩ := literal_decodes .u32_ trivial trivial trivial trivial heq
    refine ⟨?_, hrs⟩
    cases inner <;> cases inner' <;> first | rfl | cases hin
  have hlist := hone.list (fun rest => ¬StartsWith 'L' rest)
    (fun inner rest _ => ⟨trivial, fun h => h rfl⟩) (fun _ _ => trivial)
  exact hlist.mono (fun _ _ _ _ => trivial) (fun _ h => h)

theorem coroutineArgs_decodes {Valid : LangType → Prop} (hreadable : Readable Valid)
    {desc desc' : CoroutineTypeDescription} {rest r' : Text}
    (hok : desc.Valid Valid) (hok' : desc'.Valid Valid)
    (hk : desc.kind = desc'.kind)
    (heq : coroutineArgsText desc ++ rest = coroutineArgsText desc' ++ r') :
    desc = desc' ∧ rest = r' := by
  obtain ⟨k, returned, refs, innRefs, inners, nonSync⟩ := desc
  obtain ⟨k', returned', references', innerReferences', inners', nonSync'⟩ := desc'
  obtain rfl : k = k' := hk
  simp only [coroutineArgsText, cons_append, append_assoc, cons.injEq, true_and] at heq
  have hnotPart : ∀ {c : Char}, ascii c ≠ ascii 'E' → ¬IsDigit (ascii c) → ∀ refs innRefs, ∀ rest,
        ¬StartsWith c (notationText false refs innRefs [] ++ rest) := by
    intro c hE hd refs innRefs rest
    exact not_startsWith_of_behindParams (behindParams_notationText _ _ _ _ rest) hE hd
  have htags : ∀ nonSync (inners : List InnerReferenceKind) refs innRefs,
      ∀ rest, NotArgs ((if nonSync = true then (encodeLiteral .bool_ 1).text else []) ++
        (inners.flatMap (fun inner => (encodeLiteral .u32_ inner.toNat).text) ++
          (notationText false refs innRefs [] ++ rest))) := by
    intro nonSync inners refs innRefs rest
    cases nonSync with
    | true => exact fun h => absurd (some.inj h) (by decide)
    | false =>
      cases inners with
      | nil => exact hnotPart (by decide) (by decide) refs innRefs rest
      | cons inner inners => exact fun h => absurd (some.inj h) (by decide)
  have hnonSy : ∀ (inners : List InnerReferenceKind) refs innRefs, ∀ rest,
      ¬(encodeLiteral .bool_ 1).text <+:
        inners.flatMap (fun inner => (encodeLiteral .u32_ inner.toNat).text) ++
          (notationText false refs innRefs [] ++ rest) := by
    rintro inners refs innRefs rest ⟨r', hwd⟩
    cases inners with
    | nil =>
      exact hnotPart (c := 'L') (by decide) (by decide) refs innRefs rest (congrArg head? hwd.symm)
    | cons inner inners =>
      have hsnd := (cons.inj (cons.inj hwd).2).1
      exact absurd hsnd (by decide)
  obtain ⟨rfl, hflag⟩ := param_decodes hreadable hok hok' (htags _ _ _ _ _) (htags _ _ _ _ _) heq
  obtain ⟨rfl, hlist⟩ := optional_flag (hnonSy _ _ _ _) (hnonSy _ _ _ _) hflag
  obtain ⟨rfl, hret⟩ := innerReferences_decodes trivial trivial
    (hnotPart (by decide) (by decide) _ _ _) (hnotPart (by decide) (by decide) _ _ _) hlist
  obtain ⟨-, rfl, rfl, -, hrs⟩ := notationText_decodes hret
  exact ⟨rfl, hrs⟩

end USprache.CodeBuilder
