import USprache.CodeBuilder.MsvcNotation
import USprache.CodeBuilder.TypeNameDecoding

/-!
# Reading names

A name is read up to its terminator, a template name by reading what it consists of.  The
results here assume that the types within are read, and are used for types of growing size.
-/

namespace USprache.CodeBuilder.WithArgs

open LexSynt Library Msvc List Option

theorem notMem_identifier {name : Text} (h : IsIdentifier name) {b : UInt8} (hb : b.toNat < 0x80)
    (hchar : isIdentifierChar b.toNat = false) : b ∉ name := by
  obtain ⟨c, cs, rfl, hc, hchs⟩ := h
  have hall : ∀ c' ∈ c :: cs, isIdentifierChar c'.toNat = true := by
    rw [forall_mem_cons]
    refine ⟨?_, hchs⟩
    rw [isIdentifierChar, hc]
    rfl
  intro hmem
  rw [encode, mem_flatMap] at hmem
  obtain ⟨c', hc', hmem⟩ := hmem
  rcases utf8EncodeChar_bytes c' with ⟨b', hbs, hlt⟩ | ⟨b', tail, hbs, hle, htl⟩
  · -- An ASCII character is one byte, the character itself.
    have hasc : encode [c'] = b' :: [] := by
      rw [encode, flatMap_singleton, hbs]
    obtain ⟨c'', chars', hchs', htoNat, -⟩ := encode_eq_cons_ascii hasc hlt
    rw [hbs, mem_singleton] at hmem
    rw [cons.injEq] at hchs'
    rw [hmem, ← htoNat, ← hchs'.1, hall c' hc'] at hchar
    cases hchar
  · rw [hbs] at hmem
    rcases mem_cons.1 hmem with rfl | hmem
    · omega
    · have := htl b hmem
      omega

namespace IsTypeName

variable {name : Text}

theorem isDeclaredName (h : IsTypeName name) : IsDeclaredName name := by
  rcases h with hn | ⟨r, rfl, -⟩
  · exact .inl hn
  · exact .inr ⟨r, rfl⟩

theorem terminator_notMem (h : IsTypeName name) : terminator ∉ name := by
  rcases h with ⟨hid, -⟩ | ⟨rest, rfl, hrs⟩
  · exact notMem_identifier hid (by decide) (by decide)
  · rw [mem_append]
    rintro (hmem | hmem)
    · revert hmem
      decide
    · exact hrs hmem

theorem exists_cons (h : IsTypeName name) : ∃ b r, name = b :: r ∧ ¬IsDigit b ∧ b ≠ ascii '?' := by
  obtain ⟨b, r, hn, hd⟩ := h.isDeclaredName.startsName
  refine ⟨b, r, hn, hd, ?_⟩
  rcases h with ⟨hid, -⟩ | ⟨rest', rfl, -⟩
  · rintro rfl
    apply notMem_identifier hid (b := ascii '?') (by decide) (by decide)
    rw [hn]
    exact mem_cons_self
  · rw [← (cons.inj hn).1]
    decide

theorem ne_keyword (h : IsTypeName name) (kw : Keyword) : name ≠ kw.text := by
  rintro rfl
  rcases h with ⟨-, hkw⟩ | ⟨rest, heq, -⟩
  · exact hkw ⟨kw, rfl⟩
  · obtain ⟨b, rest', hb, -, hbar⟩ := identifier_start kw.isIdentifier
    rw [hb] at heq
    exact hbar (cons.inj heq).1

end IsTypeName

namespace ManglerMsvc

theorem terminated_decodes {name n' r r' : Text} (h : terminator ∉ name) (h' : terminator ∉ n')
    (heq : name ++ (asciiText "@" ++ r) = n' ++ (asciiText "@" ++ r')) :
    name = n' ∧ r = r' := by
  have hter : ∀ r, ∀ b ∈ (asciiText "@" ++ r).head?, ¬b ≠ terminator := by
    rintro r b ⟨⟩
    exact not_not.2 rfl
  obtain ⟨hn, hrs⟩ := append_inj_of_all (p := (· ≠ terminator))
    (fun b hb => ne_of_mem_of_not_mem hb h) (fun b hb => ne_of_mem_of_not_mem hb h')
    (hter r) (hter r') heq
  exact ⟨hn, append_cancel_left hrs⟩

inductive Head where
  | type (type : LangType)
  | typeTemplate (typeTemplate : TypeTemplate)
  | mark (mark : Mark)

variable (modifier : String)

def encodeHead : Head → List Call
  | .type type => encodeType modifier type
  | .typeTemplate (.mk parent name _) =>
    push "U" ++ [.encodeName name] ++ encodeNamespacePostfix modifier parent ++ push "@"
  | .mark mark => encodeMark mark

structure Readable (Valid : Head → Prop) : Prop where
  named : ∀ head, Valid head → Named (encodeHead modifier head)
  reads : Reads (encodeHead modifier) Valid (fun _ => True)

theorem head_lead (names : List Text) (head : Head) :
    ∃ lead rest, emit names (encodeHead modifier head) = lead :: rest ∧ lead ∈ typeLeads ∧
      (lead = ascii 'X' → rest = []) := by
  cases head with
  | type type =>
    obtain ⟨lead, rest, calls, hcas, hld, hvoid⟩ := encodeTypeFrom_lead modifier type []
    refine ⟨lead, rest ++ emit names calls, ?_, hld, fun h => ?_⟩
    · rw [encodeHead, encodeType, hcas]
      rfl
    · rw [(hvoid h).1, (hvoid h).2]
      rfl
  | typeTemplate typeTemplate =>
    cases typeTemplate
    exact ⟨ascii 'U', _, rfl, by decide, fun h => absurd h (by decide)⟩
  | mark mark => cases mark <;> exact ⟨ascii 'U', _, rfl, by decide, fun h => absurd h (by decide)⟩

variable (ns : List Text)

theorem head_not_startsWith (head : Head) (r : Text) {c : Char}
    (hc : ascii c ∉ typeLeads) : ¬StartsWith c (emit ns (encodeHead modifier head) ++ r) := by
  obtain ⟨lead, text, ht, hld, -⟩ := head_lead modifier ns head
  rw [ht]
  intro hst
  rw [some.inj hst] at hld
  exact hc hld

def ArgValid (Valid : Head → Prop) : TemplateArg → Prop
  | .type type => Valid (.type type)
  | .variable_ type constexprValue => Valid (.type type) ∧ type.integerType.isSome = true ∧
    ∃ bits : BitVec 64, constexprValue = [⟨64, bits⟩]
  | .typeTemplate typeTemplate => Valid (.typeTemplate typeTemplate)

def argHead : TemplateArg → Head
  | .type type => .type type
  | .variable_ type _ => .type type
  | .typeTemplate typeTemplate => .typeTemplate typeTemplate

def isArrayArg : TemplateArg → Bool
  | .type type => isArray type
  | _ => false

def argValue : TemplateArg → List Call
  | .variable_ type constexprValue =>
    push "$0" ++ encodeNumber (constexprValue.headD (apInt64 0)) (isSigned type)
  | _ => []

def BehindArg (rest : Text) : Prop := ¬asciiText "$0" <+: rest

@[simp] theorem emit_push (str : String) :
    emit ns (push str) = asciiText str := append_nil _

@[simp] theorem tableAfter_push (str : String) :
    tableAfter ns (push str) = ns := rfl

theorem integerType_not_array {t : LangType} (h : t.integerType.isSome = true) :
    (isArray t || isTuple t) = false := by
  cases t <;> first | rfl | cases h

variable {arg : TemplateArg}

theorem encodeTemplateArgImpl_eq {Valid : Head → Prop} (h : ArgValid Valid arg) :
    encodeTemplateArgImpl modifier arg =
      (if isArrayArg arg then push "$$B" else []) ++ encodeHead modifier (argHead arg) ++
        argValue arg := by
  cases arg with
  | type type =>
    rw [argValue, append_nil]
    · rfl
    · intro _ _ h
      cases h
  | variable_ type constexprValue =>
    rw [encodeTemplateArgImpl, integerType_not_array h.2.1,
      append_assoc]
    rfl
  | typeTemplate typeTemplate =>
    cases typeTemplate
    rw [argValue, append_nil]
    · rfl
    · intro _ _ h
      cases h

theorem callNames_argMark (arg : TemplateArg) :
    callNames (if isArrayArg arg then push "$$B" else []) = [] := by
  split <;> rfl

theorem callNames_argValue (arg : TemplateArg) : callNames (argValue arg) = [] := by
  cases arg <;> rfl

variable {modifier} {Valid : Head → Prop}

theorem emit_arg (h : ArgValid Valid arg) (ns : List Text) :
    emit ns (encodeTemplateArgImpl modifier arg) =
      (if isArrayArg arg then asciiText "$$B" else []) ++
        (emit ns (encodeHead modifier (argHead arg)) ++ plainText (argValue arg)) := by
  rw [encodeTemplateArgImpl_eq modifier h, emit_append, emit_append,
    tableAfter_of_callNames_nil (callNames_argMark arg),
    emit_of_callNames_nil (callNames_argValue arg), append_assoc]
  congr 1
  split
  · exact emit_push ns _
  · rfl

theorem named_arg (hrd : Readable modifier Valid) (h : ArgValid Valid arg) :
    Named (encodeTemplateArgImpl modifier arg) := by
  have hhd : Valid (argHead arg) := by
    cases arg with
    | type type => exact h
    | variable_ type constexprValue => exact h.1
    | typeTemplate typeTemplate => exact h
  rw [encodeTemplateArgImpl_eq modifier h, named_append, named_append]
  exact ⟨⟨named_of_callNames_nil (callNames_argMark arg), hrd.named _ hhd⟩,
    named_of_callNames_nil (callNames_argValue arg)⟩

theorem plainText_argValue_variable (t : LangType) (v : Constant) (r : Text) :
    asciiText "$0" <+: plainText (argValue (.variable_ t v)) ++ r := by
  exact prefix_append _ _

theorem behindArg_head (head : Head) (r : Text) :
    BehindArg (emit ns (encodeHead modifier head) ++ r) := by
  rintro ⟨rest', heq⟩
  exact head_not_startsWith modifier ns head r (c := '$') (by decide) (by rw [← heq]; rfl)

theorem arg_start (h : ArgValid Valid arg) (ns : List Text) (r : Text) :
    BehindArg (emit ns (encodeTemplateArgImpl modifier arg) ++ r) ∧
      ¬StartsWith '@' (emit ns (encodeTemplateArgImpl modifier arg) ++ r) := by
  rw [emit_arg h]
  cases isArrayArg arg with
  | true =>
    refine ⟨?_, ?_⟩
    · rintro ⟨rest', heq⟩
      exact absurd (cons.inj (cons.inj heq).2).1 (by decide)
    · intro hst
      exact absurd (some.inj hst) (by decide)
  | false =>
    rw [if_neg Bool.false_ne_true, nil_append, append_assoc]
    exact ⟨behindArg_head ns _ _, head_not_startsWith modifier ns _ _ (by decide)⟩

theorem arg_reads (hreadable : Readable modifier Valid) :
    Reads (encodeTemplateArgImpl modifier) (ArgValid Valid) BehindArg := by
  intro names hlen arg arg' rest rest' harg harg' hrs hrs' heq
  have hwd : ∀ arg rest, ¬asciiText "$$B" <+:
      emit names (encodeHead modifier (argHead arg)) ++ rest := by
    rintro arg rest ⟨rest', heq⟩
    exact head_not_startsWith modifier names _ rest (c := '$') (by decide) (by rw [← heq]; rfl)
  have hfit : ∀ {arg : TemplateArg}, ArgValid Valid arg ∧
      Fits names (encodeTemplateArgImpl modifier arg) →
        Fits names (encodeHead modifier (argHead arg)) := by
    rintro arg ⟨hok, hfit⟩
    rw [encodeTemplateArgImpl_eq modifier hok] at hfit
    have hhd := hfit.append.1.append.2
    rwa [tableAfter_of_callNames_nil (callNames_argMark arg)] at hhd
  simp only [emit_arg harg.1, emit_arg harg'.1, append_assoc] at heq
  obtain ⟨-, htl⟩ := optional_flag (hwd arg _) (hwd arg' _) heq
  have hrd := fun hok hok' => hreadable.reads names hlen
    ⟨hok, hfit harg⟩ ⟨hok', hfit harg'⟩ trivial trivial htl
  cases arg with
  | type type =>
    cases arg' with
    | type type' =>
      obtain ⟨hhd, hrs⟩ := hrd harg.1 harg'.1
      cases hhd
      exact ⟨rfl, hrs⟩
    | variable_ type' value' =>
      obtain ⟨-, hbh⟩ := hrd harg.1 harg'.1.1
      have hv := plainText_argValue_variable type' value' rest'
      rw [← hbh] at hv
      exact absurd hv hrs
    | typeTemplate typeTemplate' =>
      obtain ⟨hhd, -⟩ := hrd harg.1 harg'.1
      cases hhd
  | variable_ type value =>
    cases arg' with
    | type type' =>
      obtain ⟨-, hbh⟩ := hrd harg.1.1 harg'.1
      have hv := plainText_argValue_variable type value rest
      rw [hbh] at hv
      exact absurd hv hrs'
    | variable_ type' value' =>
      obtain ⟨hhd, hbh⟩ := hrd harg.1.1 harg'.1.1
      cases hhd
      obtain ⟨-, -, bits, rfl⟩ := harg.1
      obtain ⟨-, -, bits', rfl⟩ := harg'.1
      have hnum : ∀ bits, plainText (argValue (.variable_ type [⟨64, bits⟩])) =
          asciiText "$0" ++ numberText ⟨64, bits⟩ (isSigned type) := by
        intro bits
        exact congrArg _ (append_nil _)
      rw [hnum, hnum, append_assoc] at hbh
      obtain ⟨hbts, hrs⟩ := numberText_decodes (isSigned type) rfl rfl trivial trivial
        (append_cancel_left hbh)
      rw [hbts]
      exact ⟨rfl, hrs⟩
    | typeTemplate typeTemplate' =>
      obtain ⟨hhd, -⟩ := hrd harg.1.1 harg'.1
      cases hhd
  | typeTemplate typeTemplate =>
    cases arg' with
    | type type' =>
      obtain ⟨hhd, -⟩ := hrd harg.1 harg'.1
      cases hhd
    | variable_ type' value' =>
      obtain ⟨hhd, -⟩ := hrd harg.1 harg'.1.1
      cases hhd
    | typeTemplate typeTemplate' =>
      obtain ⟨hhd, hrs⟩ := hrd harg.1 harg'.1
      cases hhd
      exact ⟨rfl, hrs⟩

theorem encodeTemplateArgs_eq (as : List TemplateArg) :
    encodeTemplateArgs modifier as = as.flatMap (encodeTemplateArgImpl modifier) := by
  induction as with
  | nil => rw [encodeTemplateArgs, flatMap_nil]
  | cons arg as ih => rw [encodeTemplateArgs, ih, flatMap_cons]

theorem args_reads (hrd : Readable modifier Valid) :
    Reads (encodeTemplateArgs modifier) (fun as => ∀ arg ∈ as, ArgValid Valid arg)
      (StartsWith '@') := by
  have hlist := (arg_reads hrd).list (StartsWith '@') (fun ns arg r _ h =>
    arg_start h ns r) (fun r hrs => by
      rintro ⟨rest', heq⟩
      rw [← heq] at hrs
      exact absurd (some.inj hrs) (by decide))
  have heq : encodeTemplateArgs modifier = flatMap (encodeTemplateArgImpl modifier) :=
    funext encodeTemplateArgs_eq
  rwa [heq]

theorem encodeElementTypes_eq (ts : List LangType) :
    encodeElementTypes modifier ts = encodeTemplateArgs modifier (ts.map TemplateArg.type) := by
  induction ts with
  | nil => rw [encodeElementTypes, map_nil, encodeTemplateArgs]
  | cons type ts ih =>
    rw [encodeElementTypes, ih, map_cons, encodeTemplateArgs, encodeTemplateArgImpl]

end ManglerMsvc
end USprache.CodeBuilder.WithArgs
