import USprache.CodeBuilder.TypeNameDecoding

/-!
# Different types have different names

The text of a type shows its form: what kind of type it is and what it is built from, and
for a class or an enum its qualified name.  In a program a qualified name stands for one
scope, class or enum.  Only among class templates of one name the text does not show which
of them a class is made from.
-/

namespace USprache.CodeBuilder

open LexSynt Library List Option Nat LangType

def fundamentalTypes : List FundamentalType :=
  [.void_, .bool_, .i8_, .u8_, .i16_, .u16_, .i32_, .u32_, .i64_, .u64_, .i128_, .u128_,
    .ssize_type_, .size_type_, .f32_, .f64_, .char8_, .char16_, .char32_, .byte8_, .byte16_, .byte32_,
    .byte64_, .byte128_]

inductive TypeForm where
  | fundamental (type : FundamentalType)
  | array (elementType : LangType) (elementCount : UInt64)
  | rawPointer (elementType : LangType)
  | functionPointer (functionType : FunctionType)
  | tuple (elementTypes : List LangType)
  | coroutine (description : CoroutineTypeDescription)
  | declared (components : List Component)

def argsText (args : List LangType) : Text := ascii 'I' :: (args.flatMap typeText ++ [ascii 'E'])

def Component.text (component : Component) : Text :=
  lengthPrefixed component.name ++ component.args.elim [] argsText

namespace TypeForm

def text : TypeForm → Text
  | fundamental type => encodeFundamentalType type
  | array elementType elementCount =>
    ascii 'A' :: (ManglerState.decimal elementCount.toNat ++ ascii '_' :: typeText elementType)
  | rawPointer elementType => ascii 'P' :: typeText elementType
  | functionPointer functionType => ascii 'P' :: functionText functionType
  | tuple elementTypes => lengthPrefixed Keyword.tup_.text ++ argsText elementTypes
  | coroutine description =>
    lengthPrefixed description.kind.keyword.text ++ coroutineArgsText description
  | declared [component] => component.text
  | declared components => ascii 'N' :: (components.flatMap Component.text ++ [ascii 'E'])

def Valid (Valid : LangType → Prop) : TypeForm → Prop
  | fundamental _ => True
  | array elementType _ => Valid elementType
  | rawPointer elementType => Valid elementType
  | functionPointer functionType => functionType.Valid Valid
  | tuple elementTypes => ∀ type ∈ elementTypes, Valid type
  | coroutine description => description.Valid Valid
  | declared components => components ≠ [] ∧ ∀ component ∈ components, component.Valid Valid

def type? : TypeForm → Option LangType
  | fundamental type => some (.fundamental type)
  | array elementType elementCount => some (.array elementType elementCount)
  | rawPointer elementType => some (.rawPointer elementType)
  | functionPointer functionType => some (.functionPointer functionType)
  | tuple elementTypes => some (.tuple elementTypes)
  | coroutine description => some (.classType (.coroutine description))
  | declared _ => none

inductive Lead where
  | fundamental | array | pointer | nested
  | name (name : Text)

def lead : TypeForm → Lead
  | fundamental _ => .fundamental
  | array .. => .array
  | rawPointer _ | functionPointer _ => .pointer
  | tuple _ => .name Keyword.tup_.text
  | coroutine description => .name description.kind.keyword.text
  | declared [component] => .name component.name
  | declared _ => .nested

end TypeForm

def LangType.form : LangType → TypeForm
  | fundamental type => .fundamental type
  | array elementType elementCount => .array elementType elementCount
  | rawPointer elementType => .rawPointer elementType
  | classType (.declared parent name) => .declared (parent.components ++ [⟨name, none⟩])
  | classType (.ofTemplate parent name _ signatureArgs) =>
    .declared (parent.components ++ [⟨name, some signatureArgs⟩])
  | classType (.coroutine description) => .coroutine description
  | enumType parent name => .declared (parent.components ++ [⟨name, none⟩])
  | functionPointer functionType => .functionPointer functionType
  | tuple elementTypes => .tuple elementTypes

namespace Program

variable {P : Program}

theorem HasScope.not_isEmpty {sc : NamesScope} (h : P.HasScope sc)
    (hpar : sc.hasParent = true) : sc.thisNamespaceName.isEmpty = false := by
  rcases h.declaredIn with rfl | ⟨parent, component, -, hdecl⟩
  · cases hpar
  · cases hdecl with
    | namespace_ _ hlk | class_ _ hlk =>
      obtain ⟨b, rest, rfl, -⟩ := (P.declared_name hlk).startsName
      rfl
    | template => rfl

theorem HasScope.text_prefix : ∀ {sc : NamesScope}, P.HasScope sc →
    (encodeParentPrefix sc (encodeNamespacePrefix sc)).text = sc.components.flatMap Component.text
  | .root, _ => rfl
  | .namespace_ parent name, h | .members (.declared parent name), h => by
    have hn := h.not_isEmpty rfl
    have hpar := text_prefix h.1
    rw [encodeParentPrefix, hn, encodeNamespacePrefix, NamesScope.components]
    simp [hpar, Component.text, lengthPrefixed]
  | .members (.ofTemplate parent name template signatureArgs), h => by
    have hn := h.not_isEmpty rfl
    have hpar := text_prefix h.1
    rw [encodeParentPrefix, hn, encodeNamespacePrefix, NamesScope.components]
    simp [hpar, Component.text, lengthPrefixed, encodeTemplateClassName, encodeTemplateArgs,
      text_encodeTypeNames, argsText]
  | .members (.coroutine _), h => by simp [HasScope] at h

theorem HasScope.text_nested {sc : NamesScope} (h : P.HasScope sc) (cmp : Component) :
    (TypeForm.declared (sc.components ++ [cmp])).text =
      if sc.hasParent then
        ascii 'N' :: ((encodeNamespacePrefix sc).text ++ (cmp.text ++ [ascii 'E']))
      else cmp.text := by
  rcases h.declaredIn with rfl | ⟨p, last, -, hdecl⟩
  · rfl
  · have hpar : sc.hasParent = true := by cases hdecl <;> rfl
    have ht : (encodeNamespacePrefix sc).text = sc.components.flatMap Component.text := by
      rw [← h.text_prefix, encodeParentPrefix, h.not_isEmpty hpar]
      rfl
    rw [if_pos hpar, ht, hdecl.components]
    cases p.components with
    | nil => simp [TypeForm.text]
    | cons first others => cases others <;> simp [TypeForm.text]

variable {type : LangType}

theorem HasType.typeText_eq (h : P.HasType type) : typeText type = type.form.text := by
  cases type with
  | fundamental type | array elTy elementCount | rawPointer elTy =>
    simp [typeText, encodeTypeName, form, TypeForm.text]
  | functionPointer functionType =>
    simp [typeText, encodeTypeName, form, TypeForm.text, functionText]
  | tuple elementTypes =>
    simp [typeText, encodeTypeName, form, TypeForm.text, lengthPrefixed, argsText,
      text_encodeTypeNames]
  | enumType p n =>
    rw [form, h.1.text_nested, typeText, encodeTypeName, encodeNestedName]
    cases p.hasParent <;> simp [Component.text, lengthPrefixed]
  | classType cls =>
    cases cls with
    | declared p n =>
      rw [form, h.1.text_nested, typeText, encodeTypeName, encodeClass, encodeNestedName]
      cases p.hasParent <;> simp [Component.text, lengthPrefixed]
    | ofTemplate p n template signatureArgs =>
      rw [form, h.1.text_nested, typeText, encodeTypeName, encodeClass]
      cases hpar : p.hasParent with
      | false =>
        have hroot : p = .root := by
          cases p with
          | root => rfl
          | namespace_ p n | members cls => cases hpar
        subst hroot
        simp [encodeTemplateClassName, encodeTemplateArgs, text_encodeTypeNames, Component.text,
          lengthPrefixed, argsText, encodeParentPrefix, NamesScope.thisNamespaceName]
      | true =>
        simp [encodeTemplateClassName, encodeTemplateArgs, text_encodeTypeNames, Component.text,
          lengthPrefixed, argsText, encodeParentPrefix, h.1.not_isEmpty hpar]
    | coroutine description =>
      rw [form, TypeForm.text, ← text_encodeCoroutineType, typeText, encodeTypeName, encodeClass]

theorem HasType.form_valid {n : Nat} (h : P.HasType type) (hsz : sizeOf type < n + 1) :
    type.form.Valid (fun type => P.HasType type ∧ sizeOf type < n) := by
  cases type with
  | fundamental type => trivial
  | array elTy elementCount =>
    rw [array.sizeOf_spec] at hsz
    exact ⟨h, by omega⟩
  | rawPointer elTy =>
    rw [rawPointer.sizeOf_spec] at hsz
    exact ⟨h, by omega⟩
  | functionPointer fTy =>
    obtain ⟨params, ret, _, _, _, _, _⟩ := fTy
    rw [functionPointer.sizeOf_spec, FunctionType.mk.sizeOf_spec] at hsz
    refine ⟨fun param hp => ?_, ?_⟩
    · have hlt := sizeOf_lt_of_mem hp
      have hp := hasParams_iff.1 h.1 param hp
      obtain ⟨type, kind⟩ := param
      rw [FunctionParam.mk.sizeOf_spec] at hlt
      exact ⟨hp, by rw [FunctionParam.type]; omega⟩
    · obtain ⟨type, kind⟩ := ret
      rw [FunctionParam.mk.sizeOf_spec] at hsz
      exact ⟨h.2, by rw [FunctionParam.type]; omega⟩
  | tuple elementTypes =>
    rw [tuple.sizeOf_spec] at hsz
    intro type hty
    have hlt := sizeOf_lt_of_mem hty
    exact ⟨hasTypes_iff.1 h type hty, by omega⟩
  | enumType p name =>
    rw [enumType.sizeOf_spec] at hsz
    refine ⟨by simp, ?_⟩
    rw [forall_mem_append, forall_mem_singleton]
    exact ⟨h.1.components_valid (by omega), valid_component h.2⟩
  | classType cls =>
    rw [classType.sizeOf_spec] at hsz
    cases cls with
    | declared p name =>
      rw [Class.declared.sizeOf_spec] at hsz
      refine ⟨by simp, ?_⟩
      rw [forall_mem_append, forall_mem_singleton]
      exact ⟨h.1.components_valid (by omega), valid_component h.2⟩
    | ofTemplate p name template signatureArgs =>
      rw [Class.ofTemplate.sizeOf_spec] at hsz
      refine ⟨by simp, ?_⟩
      rw [forall_mem_append, forall_mem_singleton]
      refine ⟨h.1.components_valid (by omega), P.declared_name h.2.1, ?_⟩
      rintro args ⟨⟩ arg harg
      have hlt := sizeOf_lt_of_mem harg
      exact ⟨hasTypes_iff.1 h.2.2.1 arg harg, by omega⟩
    | coroutine desc =>
      obtain ⟨_, ⟨type, kind⟩, _, _, _, _⟩ := desc
      rw [Class.coroutine.sizeOf_spec, CoroutineTypeDescription.mk.sizeOf_spec,
        FunctionParam.mk.sizeOf_spec] at hsz
      exact ⟨h, by rw [FunctionParam.type]; omega⟩

inductive DeclaredAs (P : Program) : LangType → NamesScope → Component → Prop
  | class_ {parent name} : P.HasScope parent → P.lookup parent name = some .class_ →
    DeclaredAs P (.classType (.declared parent name)) parent ⟨name, none⟩
  | enum_ {parent name} : P.HasScope parent → P.lookup parent name = some .enum_ →
    DeclaredAs P (.enumType parent name) parent ⟨name, none⟩
  | template {parent name template args} : P.HasScope parent →
    P.HasClass (.ofTemplate parent name template args) →
    DeclaredAs P (.classType (.ofTemplate parent name template args)) parent ⟨name, some args⟩

theorem HasType.declaredAs (h : P.HasType type) :
    type.form.type? = some type ∨ ∃ p cmp, P.DeclaredAs type p cmp := by
  cases type with
  | fundamental type | array elTy elementCount | rawPointer elTy | functionPointer functionType
  | tuple elementTypes => exact .inl rfl
  | enumType p n => exact .inr ⟨p, _, .enum_ h.1 h.2⟩
  | classType cls =>
    cases cls with
    | declared p n => exact .inr ⟨p, _, .class_ h.1 h.2⟩
    | ofTemplate p n tm signatureAs => exact .inr ⟨p, _, .template h.1 h⟩
    | coroutine description => exact .inl rfl

variable {p : NamesScope} {cmp : Component}

theorem DeclaredAs.has_parent (h : P.DeclaredAs type p cmp) : P.HasScope p := by
  cases h <;> assumption

theorem DeclaredAs.form (h : P.DeclaredAs type p cmp) :
    type.form = .declared (p.components ++ [cmp]) := by
  cases h <;> rfl

theorem DeclaredAs.eq (hone : P.OneTemplatePerName) {t' : LangType}
    (h : P.DeclaredAs type p cmp) (h' : P.DeclaredAs t' p cmp) : type = t' := by
  cases h with
  | class_ _ hlk =>
    cases h' with
    | class_ => rfl
    | enum_ _ hlk' => cases hlk.symm.trans hlk'
  | enum_ _ hlk =>
    cases h' with
    | class_ _ hlk' => cases hlk.symm.trans hlk'
    | enum_ => rfl
  | template _ hcl =>
    cases h' with
    | template _ hcl' => rw [hone hcl hcl']

theorem HasType.eq_of_form (hone : P.OneTemplatePerName) {t' : LangType} (h : P.HasType type)
    (h' : P.HasType t') (heq : type.form = t'.form) : type = t' := by
  rcases h.declaredAs with hty | ⟨parent, component, hdecl⟩ <;>
    rcases h'.declaredAs with hty' | ⟨parent', component', hdecl'⟩
  · rw [heq, hty'] at hty
    exact (some.inj hty).symm
  · rw [heq, hdecl'.form] at hty
    cases hty
  · rw [← heq, hdecl.form] at hty'
    cases hty'
  · have hcs := TypeForm.declared.inj (hdecl.form.symm.trans (heq.trans hdecl'.form))
    obtain ⟨hinit, hla⟩ := append_inj' hcs rfl
    obtain rfl := hdecl.has_parent.eq_of_components hone hdecl'.has_parent hinit
    obtain rfl := singleton_inj.1 hla
    exact hdecl.eq hone hdecl'

end Program

theorem fundamentalType_decodes :
    Decodes encodeFundamentalType (fun _ => True) (fun _ => True) := by
  apply Decodes.of_prefixFree
  have hall : ∀ type, type ∈ fundamentalTypes := by
    intro type
    cases type <;> decide
  have hfree : ∀ type ∈ fundamentalTypes, ∀ t' ∈ fundamentalTypes,
      encodeFundamentalType type <+: encodeFundamentalType t' → type = t' := by decide +kernel
  exact fun type t' => hfree type (hall type) t' (hall t')

namespace TypeForm

namespace Lead

def Starts (text : Text) : Lead → Prop
  | fundamental => ∃ b rest, text = b :: rest ∧ b ∉ asciiText "APN" ∧ ¬IsDigit b
  | array => StartsWith 'A' text
  | pointer => StartsWith 'P' text
  | nested => StartsWith 'N' text
  | .name n => StartsName n ∧ lengthPrefixed n <+: text

/-- The lead that the first byte shows, without the name. -/
def ofByte (b : UInt8) : Lead :=
  if b = ascii 'A' then .array
  else if b = ascii 'P' then .pointer
  else if b = ascii 'N' then .nested
  else if IsDigit b then .name []
  else .fundamental

def eraseName : Lead → Lead
  | name _ => .name []
  | lead => lead

theorem Starts.ofByte {text : Text} {lead : Lead} (h : lead.Starts text) :
    ∃ b ∈ text.head?, ofByte b = lead.eraseName := by
  cases lead with
  | fundamental =>
    obtain ⟨b, rest, rfl, hb, hd⟩ := h
    have hne : ∀ c ∈ ['A', 'P', 'N'], b ≠ ascii c := by
      rintro c hc rfl
      exact hb (mem_map_of_mem (f := ascii) hc)
    refine ⟨b, rfl, ?_⟩
    rw [Lead.ofByte, if_neg (hne _ (by decide)), if_neg (hne _ (by decide)), if_neg (hne _ (by decide)),
      if_neg hd]
    rfl
  | array => exact ⟨ascii 'A', h, rfl⟩
  | pointer => exact ⟨ascii 'P', h, rfl⟩
  | nested => exact ⟨ascii 'N', h, rfl⟩
  | name name =>
    obtain ⟨-, rest, rfl⟩ := h
    obtain ⟨b, rest', hhd, hd⟩ := lengthPrefixed_head name rest
    have hne : ∀ c ∈ ['A', 'P', 'N'], b ≠ ascii c := by
      rintro c hc rfl
      have hlet : ¬IsDigit (ascii c) := by
        simp only [mem_cons, not_mem_nil, or_false] at hc
        rcases hc with rfl | rfl | rfl <;> decide
      exact hlet hd
    refine ⟨b, by rw [hhd]; rfl, ?_⟩
    rw [Lead.ofByte, if_neg (hne _ (by decide)), if_neg (hne _ (by decide)), if_neg (hne _ (by decide)),
      if_pos hd]
    rfl

theorem Starts.unique {t : Text} {lead lead' : Lead} (h : lead.Starts t)
    (h' : lead'.Starts t) : lead = lead' := by
  obtain ⟨b, hb, hld⟩ := h.ofByte
  obtain ⟨b', hb', hld'⟩ := h'.ofByte
  obtain rfl : b = b' := some.inj (hb.symm.trans hb')
  have hera : lead.eraseName = lead'.eraseName := hld.symm.trans hld'
  cases lead <;> cases lead' <;> first | rfl | cases hera
  obtain ⟨hn, rest, rfl⟩ := h
  obtain ⟨hn', rest', heq⟩ := h'
  rw [(lengthPrefixed_decodes hn hn' trivial trivial heq.symm).1]

end Lead

theorem lead_declared_ne (cs : List Component) :
    (declared cs).lead ≠ .fundamental ∧ (declared cs).lead ≠ .array ∧
      (declared cs).lead ≠ .pointer := by
  match cs with
  | [] | [_] | _ :: _ :: _ => exact ⟨nofun, nofun, nofun⟩

theorem coroutineKeyword_mem (k : CoroutineKind) : k.keyword.text ∈ reservedNames := by
  cases k <;> decide

theorem Valid.starts {Valid : LangType → Prop} {form : TypeForm} (h : form.Valid Valid) (r : Text) :
    form.lead.Starts (form.text ++ r) := by
  cases form with
  | fundamental type => cases type <;> exact ⟨_, _, rfl, by decide⟩
  | array elTy elementCount => exact rfl
  | rawPointer elTy => exact rfl
  | functionPointer functionType => exact rfl
  | tuple elementTypes =>
    refine ⟨reservedNames_startsName _ (by decide), ?_⟩
    apply prefix_append
  | coroutine description =>
    refine ⟨reservedNames_startsName _ (coroutineKeyword_mem _), ?_⟩
    rw [text, append_assoc]
    apply prefix_append
  | declared cs =>
    match cs, h with
    | [component], h =>
      refine ⟨(h.2 component mem_cons_self).1.startsName, ?_⟩
      rw [text, Component.text, append_assoc]
      apply prefix_append
    | first :: second :: others, _ => exact rfl

theorem Valid.lead_ne {Valid : LangType → Prop} {cs : List Component} {n : Text}
    (h : (declared cs).Valid Valid) (hn : n ∈ reservedNames) :
    Lead.name n ≠ (declared cs).lead := by
  match cs, h with
  | [component], h =>
    intro heq
    exact (h.2 component mem_cons_self).1.not_reserved (Lead.name.inj heq ▸ hn)
  | _ :: _ :: _, _ => nofun
  | [], _ => nofun

end TypeForm

theorem typeStart_head_lengthPrefixed (n r : Text) :
    ∃ b r', lengthPrefixed n ++ r = b :: r' ∧ b ∉ asciiText "IELRKFU" := by
  obtain ⟨b, r', ht, hd⟩ := lengthPrefixed_head n r
  have hlet : (asciiText "IELRKFU").all (fun b => !decide (IsDigit b)) = true := by decide
  refine ⟨b, r', ht, fun hb => ?_⟩
  simpa [hd] using all_eq_true.1 hlet b hb

theorem typeText_ne_functionText {type : LangType} (h : TypeStart (typeText type))
    (fTy : FunctionType) (r r' : Text) :
    typeText type ++ r ≠ functionText fTy ++ r' := by
  obtain ⟨params, returned, isUnsafe, convention, references, inner, pollution⟩ := fTy
  intro heq
  have hhd := congrArg head? heq
  cases convention with
  | default_ => exact h.not_startsWith (c := 'F') (by decide) r hhd
  | c | fast | cold | system => exact h.not_startsWith (c := 'U') (by decide) r hhd

section Reading

variable {Valid : LangType → Prop} (hreadable : Readable Valid)

include hreadable

theorem args_decodes : Decodes argsText (fun as => ∀ arg ∈ as, Valid arg) (fun _ => True) := by
  intro as args' rest rest' hargs hargs' _ _ heq
  simp only [argsText, cons_append, append_assoc, cons.injEq, true_and] at heq
  obtain ⟨rfl, hrs⟩ := typeTexts_decodes hreadable hargs hargs' (by exact rfl) (by exact rfl) heq
  exact ⟨rfl, (cons.inj hrs).2⟩

theorem component_decodes : Decodes Component.text (Component.Valid Valid) NotArgs := by
  rintro ⟨name, as⟩ ⟨name', as'⟩ rest rest' hok hok' hrs hrs' heq
  simp only [Component.text, append_assoc] at heq
  obtain ⟨rfl, hargs⟩ := lengthPrefixed_decodes hok.1.startsName hok'.1.startsName trivial trivial heq
  cases as with
  | none =>
    cases as' with
    | none => exact ⟨rfl, hargs⟩
    | some as' => exact absurd (congrArg head? hargs) hrs
  | some as =>
    cases as' with
    | none => exact absurd (congrArg head? hargs.symm) hrs'
    | some as' =>
      obtain ⟨rfl, hrs⟩ := args_decodes hreadable (hok.2 as rfl) (hok'.2 as' rfl)
        trivial trivial hargs
      exact ⟨rfl, hrs⟩

theorem components_decodes : Decodes (flatMap Component.text) (fun cs => ∀ c ∈ cs, c.Valid Valid)
    (StartsWith 'E') := by
  refine (component_decodes hreadable).list _ (fun cmp r _ => ?_) (fun r hrs hI => ?_)
  · have hd : ∀ {c : Char}, ¬IsDigit (ascii c) → ¬StartsWith c (cmp.text ++ r) := by
      intro c hc hst
      rw [Component.text, append_assoc] at hst
      exact not_isPrefix_of_startsWith hst hc (prefix_append _ _)
    exact ⟨hd (by decide), hd (by decide)⟩
  · exact absurd (some.inj (hrs.symm.trans hI)) (by decide)

theorem form_decodes : Decodes TypeForm.text (TypeForm.Valid Valid) NotArgs := by
  intro form form' r r' hok hok' hrs hrs' heq
  have hld : form.lead = form'.lead := (hok.starts r).unique (heq ▸ hok'.starts r')
  cases form with
  | fundamental type =>
    cases form' with
    | fundamental type' =>
      obtain ⟨rfl, htl⟩ := fundamentalType_decodes trivial trivial trivial trivial heq
      exact ⟨rfl, htl⟩
    | declared cs => exact absurd hld.symm (TypeForm.lead_declared_ne cs).1
    | _ => cases hld
  | array elTy elC =>
    cases form' with
    | array elTy' elementCount' =>
      simp only [TypeForm.text, cons_append, append_assoc, cons.injEq, true_and] at heq
      have hbar : ∀ r : Text, ∀ b ∈ (ascii '_' :: r).head?, ¬IsDigit b := by
        rintro r b ⟨⟩
        decide
      obtain ⟨hc, hty⟩ := decimal_decodes trivial trivial (hbar _) (hbar _) heq
      obtain rfl := UInt64.toNat_inj.1 hc
      obtain ⟨rfl, htl⟩ := hreadable.decodes hok hok' hrs hrs' (cons.inj hty).2
      exact ⟨rfl, htl⟩
    | declared cs => exact absurd hld.symm (TypeForm.lead_declared_ne cs).2.1
    | _ => cases hld
  | rawPointer elTy =>
    cases form' with
    | rawPointer elTy' =>
      obtain ⟨rfl, htl⟩ := hreadable.decodes hok hok' hrs hrs' (cons.inj heq).2
      exact ⟨rfl, htl⟩
    | functionPointer fTy' =>
      exact absurd (cons.inj heq).2 (typeText_ne_functionText (hreadable.start _ hok) _ _ _)
    | declared cs => exact absurd hld.symm (TypeForm.lead_declared_ne cs).2.2
    | _ => cases hld
  | functionPointer fTy =>
    cases form' with
    | rawPointer elTy' =>
      exact absurd (cons.inj heq).2.symm (typeText_ne_functionText (hreadable.start _ hok') _ _ _)
    | functionPointer fTy' =>
      obtain ⟨rfl, htl⟩ := function_decodes hreadable hok hok' trivial trivial (cons.inj heq).2
      exact ⟨rfl, htl⟩
    | declared cs => exact absurd hld.symm (TypeForm.lead_declared_ne cs).2.2
    | _ => cases hld
  | tuple elementTypes =>
    cases form' with
    | tuple elTs' =>
      rw [TypeForm.text, append_assoc] at heq
      obtain ⟨rfl, htl⟩ := args_decodes hreadable hok hok' trivial trivial (append_cancel_left heq)
      exact ⟨rfl, htl⟩
    | coroutine desc' =>
      have hkin : ∀ k : CoroutineKind, Keyword.tup_.text ≠ k.keyword.text := by
        intro k
        cases k <;> decide
      exact absurd (TypeForm.Lead.name.inj hld) (hkin _)
    | declared cs' =>
      exact absurd hld (hok'.lead_ne (by decide))
    | _ => cases hld
  | coroutine description =>
    cases form' with
    | tuple elTs' =>
      have hkin : ∀ k : CoroutineKind, k.keyword.text ≠ Keyword.tup_.text := by
        intro k
        cases k <;> decide
      exact absurd (TypeForm.Lead.name.inj hld) (hkin _)
    | coroutine desc' =>
      have hkin : ∀ k k' : CoroutineKind, k.keyword.text = k'.keyword.text → k = k' := by
        intro k k'
        cases k <;> cases k' <;> decide
      have hk := hkin _ _ (TypeForm.Lead.name.inj hld)
      rw [TypeForm.text, TypeForm.text, append_assoc, append_assoc, hk] at heq
      obtain ⟨rfl, htl⟩ := coroutineArgs_decodes hreadable hok hok' hk (append_cancel_left heq)
      exact ⟨rfl, htl⟩
    | declared cs' =>
      exact absurd hld (hok'.lead_ne (TypeForm.coroutineKeyword_mem _))
    | _ => cases hld
  | declared cs =>
    cases form' with
    | tuple elTs' => exact absurd hld.symm (hok.lead_ne (by decide))
    | coroutine desc' =>
      exact absurd hld.symm (hok.lead_ne (TypeForm.coroutineKeyword_mem _))
    | declared cs' =>
      match cs, cs' with
      | [component], [component'] =>
        obtain ⟨rfl, htl⟩ := component_decodes hreadable (hok.2 _ mem_cons_self)
          (hok'.2 _ mem_cons_self) hrs hrs' heq
        exact ⟨rfl, htl⟩
      | first :: second :: others, first' :: second' :: others' =>
        rw [TypeForm.text, TypeForm.text, cons_append, cons_append, append_assoc,
          append_assoc] at heq
        · obtain ⟨hcs, htl⟩ := components_decodes hreadable hok.2 hok'.2
            (by exact rfl) (by exact rfl) (cons.inj heq).2
          exact ⟨congrArg _ hcs, (cons.inj htl).2⟩
        all_goals nofun
      | [component], first' :: second' :: others' => cases hld
      | first :: second :: others, [component'] => cases hld
      | [], _ => exact absurd rfl hok.1
      | _ :: _, [] => exact absurd rfl hok'.1
    | fundamental type => exact absurd hld (TypeForm.lead_declared_ne cs).1
    | array elTy elC => exact absurd hld (TypeForm.lead_declared_ne cs).2.1
    | rawPointer elTy | functionPointer fTy => exact absurd hld (TypeForm.lead_declared_ne cs).2.2

end Reading

namespace Program

variable {P : Program}

theorem HasType.typeStart {type : LangType} (h : P.HasType type) : TypeStart (typeText type) := by
  have hok := h.form_valid (lt_succ_self (sizeOf type))
  rw [h.typeText_eq]
  refine ⟨?_, fun n hn r hpre => ?_⟩
  · cases hform : type.form with
    | fundamental f => cases f <;> exact ⟨_, _, rfl, by decide⟩
    | array elTy elementCount | rawPointer elTy | functionPointer functionType =>
      exact ⟨_, _, rfl, by decide⟩
    | tuple elTs | coroutine desc => exact typeStart_head_lengthPrefixed _ _
    | declared cs =>
      match cs with
      | [] => exact ⟨_, _, rfl, by decide⟩
      | [component] => exact typeStart_head_lengthPrefixed _ _
      | _ :: _ :: _ => exact ⟨_, _, rfl, by decide⟩
  · have hres : notationNames ⊆ reservedNames := by decide
    have hld : TypeForm.Lead.name n = type.form.lead :=
      TypeForm.Lead.Starts.unique ⟨reservedNames_startsName n (hres hn), hpre⟩ (hok.starts r)
    have hkey : ∀ kw ∈ [Keyword.tup_, .generator_, .async_], kw.text ∉ notationNames := by decide
    generalize type.form = k at hld hok ⊢
    cases k with
    | tuple elTs =>
      exact hkey .tup_ (by decide) (TypeForm.Lead.name.inj hld ▸ hn)
    | coroutine desc =>
      have hk : desc.kind.keyword ∈ [Keyword.tup_, .generator_, .async_] := by
        cases desc.kind <;> decide
      exact hkey _ hk (TypeForm.Lead.name.inj hld ▸ hn)
    | declared cs =>
      exact hok.lead_ne (hres hn) hld
    | _ =>
      cases hld

theorem HasType.eq_void {type : LangType} (h : P.HasType type)
    (hst : StartsWith 'v' (typeText type)) : type = .fundamental .void_ := by
  have hok := h.form_valid (lt_succ_self (sizeOf type))
  have hld : type.form.lead = .fundamental := by
    have hsts := hok.starts []
    rw [← h.typeText_eq] at hsts
    refine hsts.unique ?_
    cases ht : typeText type with
    | nil => rw [ht] at hst; cases hst
    | cons b rest =>
      rw [ht] at hst
      cases hst
      exact ⟨_, _, rfl, by decide⟩
  rcases h.declaredAs with hty | ⟨parent, component, hdecl⟩
  · cases hform : type.form with
    | fundamental f =>
      rw [hform] at hty
      have hf : type = .fundamental f := (some.inj hty).symm
      subst hf
      revert hst
      cases f <;> first | exact fun _ => rfl | (intro hv; exact absurd hv (by decide))
    | declared cs => exact absurd (hform ▸ hld) (TypeForm.lead_declared_ne cs).1
    | _ => rw [hform] at hld; cases hld
  · exact absurd (hdecl.form ▸ hld) (TypeForm.lead_declared_ne _).1

/-- The texts of types of the program are read in one way, whatever their size. -/
theorem readable (hone : P.OneTemplatePerName) (n : Nat) :
    Readable (fun type => P.HasType type ∧ sizeOf type < n) := by
  induction n with
  | zero => exact ⟨fun _ _ _ _ h => absurd h.2 (not_lt_zero _), fun _ h => h.1.typeStart,
      fun _ h => h.1.eq_void⟩
  | succ n ih =>
    refine ⟨?_, fun _ h => h.1.typeStart, fun _ h => h.1.eq_void⟩
    rintro type type' rest rest' ⟨hty, hsz⟩ ⟨hty', hsz'⟩ hrs hrs' heq
    rw [hty.typeText_eq, hty'.typeText_eq] at heq
    obtain ⟨hform, htl⟩ := form_decodes ih (hty.form_valid hsz) (hty'.form_valid hsz') hrs hrs' heq
    exact ⟨hty.eq_of_form hone hty' hform, htl⟩

/-- Different types of a program have different names exactly when no two class templates of one
name are used with the same signature arguments. -/
theorem uncompressedTypeName_injective_iff (P : Program) :
    (∀ type type', P.HasType type → P.HasType type' → type ≠ type' →
      uncompressedTypeName type ≠ uncompressedTypeName type') ↔ P.OneTemplatePerName := by
  constructor
  · intro hinjective parent name template template' signatureArgs hclass hclass'
    by_contra hne
    have htype : classType (.ofTemplate parent name template signatureArgs) ≠
        .classType (.ofTemplate parent name template' signatureArgs) := by
      intro heq
      cases heq
      exact hne rfl
    refine hinjective _ _ (by rwa [HasType]) (by rwa [HasType]) htype ?_
    rw [uncompressedTypeName_eq, uncompressedTypeName_eq, encodeTypeName, encodeTypeName, encodeClass,
      encodeClass]
  · intro hone type type' htype htype' hne heq
    rw [uncompressedTypeName_eq, uncompressedTypeName_eq] at heq
    have hreadable := P.readable hone (max (sizeOf type) (sizeOf type') + 1)
    refine hne (hreadable.decodes.injective (by nofun) ⟨htype, ?_⟩ ⟨htype', ?_⟩ (some.inj heq))
    · exact lt_succ_of_le (le_max_left _ _)
    · exact lt_succ_of_le (le_max_right _ _)

/-- A program with two class templates,
`template</ type T, type V /> struct S</ T, V= f32 />` and `template</ type T /> struct S</ T, f32 />`.
For `S</ i32 />` only the first is suitable, and its second argument is the default one.  For
`S</ i32, f32 />` both are, and the second is more specialized. -/
def overloadedTemplates : Program where
  lookup
    | .root, name => if name = asciiText "S" then some .typeTemplates else none
    | _, _ => none
  generated parent name template signatureArgs := parent = .root ∧ name = asciiText "S" ∧
    template < 2 ∧ signatureArgs = [.fundamental .i32_, .fundamental .f32_]
  declared_name := by
    intro scope name entity h
    cases scope with
    | root =>
      dsimp only at h
      split at h
      · next hname =>
        subst hname
        refine Or.inl ⟨isIdentifier_asciiText (by decide), ?_⟩
        rintro ⟨keyword, hkeyword⟩
        revert hkeyword
        cases keyword <;> decide
      · cases h
    | namespace_ parent name => cases h
    | members class_ => cases h

theorem overloadedTemplates_hasType {tm : Nat} (h : tm < 2) :
    overloadedTemplates.HasType (.classType (.ofTemplate .root (asciiText "S") tm
      [.fundamental .i32_, .fundamental .f32_])) := by
  refine ⟨trivial, rfl, ?_, rfl, rfl, h, rfl⟩
  simp [HasTypes, HasType]

/-- The two classes `S</ i32 />` and `S</ i32, f32 />` have one name. -/
theorem uncompressedTypeName_not_injective :
    ¬∀ type type', overloadedTemplates.HasType type → overloadedTemplates.HasType type' →
      type ≠ type' → uncompressedTypeName type ≠ uncompressedTypeName type' := by
  intro hinjective
  refine hinjective _ _ (overloadedTemplates_hasType (show 0 < 2 by decide))
    (overloadedTemplates_hasType (show 1 < 2 by decide)) ?_ rfl
  intro heq
  cases heq

end Program

end USprache.CodeBuilder
