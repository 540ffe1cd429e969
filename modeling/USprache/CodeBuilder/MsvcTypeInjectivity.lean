import USprache.CodeBuilder.MsvcTypeForms

/-!
# Different types have different MSVC names

The form of a type determines the type, as far as the program has no two classes made from
templates of one name with arguments that agree in what a mangled name keeps.
-/

namespace USprache.CodeBuilder.WithArgs.ManglerMsvc

open LexSynt Library Msvc List Option Nat Function WithArgs.LangType

def qnameOf (component : Component) : QName :=
  match component.args with
  | none => .plain component.name
  | some args => .template (.class_ component.name args)

theorem qnameOf_injective : Injective qnameOf := by
  rintro ⟨name, as⟩ ⟨name', as'⟩ h
  cases as <;> cases as' <;> simp_all [qnameOf]

def arrayParts : LangType → List UInt64 × LangType
  | .array elementType elementCount =>
    (elementCount :: (arrayParts elementType).1, (arrayParts elementType).2)
  | type => ([], type)

def nestedArray (parts : List UInt64 × LangType) : LangType :=
  parts.1.foldr (fun elementCount elementType => .array elementType elementCount) parts.2

theorem nestedArray_arrayParts : ∀ t, nestedArray (arrayParts t) = t
  | .array elementType elementCount => by
    exact congrArg (array · elementCount) (nestedArray_arrayParts elementType)
  | .fundamental _ => rfl
  | .rawPointer _ => rfl
  | .classType _ => rfl
  | .enumType .. => rfl
  | .functionPointer _ => rfl
  | .tuple _ => rfl

def fundamentalForm (type : FundamentalType) : HeadForm :=
  match type with
  | .byte8_ => .keyword Keyword.byte8_.text
  | .byte16_ => .keyword Keyword.byte16_.text
  | .byte32_ => .keyword Keyword.byte32_.text
  | .byte64_ => .keyword Keyword.byte64_.text
  | .byte128_ => .keyword Keyword.byte128_.text
  | type => .simple type

def typeForm : LangType → HeadForm
  | .fundamental type => fundamentalForm type
  | .array elementType elementCount =>
    .array (elementCount :: (arrayParts elementType).1) (arrayParts elementType).2
  | .rawPointer elementType => .rawPointer elementType
  | .classType class_ => .named (class_.components.map qnameOf)
  | .enumType parent name _ => .enum_ ((⟨name, none⟩ :: parent.components).map qnameOf)
  | .functionPointer functionType => .functionPointer functionType
  | .tuple elementTypes => .named [.template (.tuple elementTypes)]

def headForm : Head → HeadForm
  | .type type => typeForm type
  | .typeTemplate (.mk parent name _) =>
    .named ((⟨name, none⟩ :: parent.components).map qnameOf)
  | .mark .unsafe_ => .keyword Keyword.unsafe_.text
  | .mark (.pollution rp) => .named [.template (.pollution rp)]
  | .mark (.references rr) => .named [.template (.references rr)]
  | .mark (.innerReferences rir) => .named [.template (.innerReferences rir)]

/-! ## What is written for a head -/

structure SameCalls (calls calls' : List Call) : Prop where
  emit_eq : ∀ names, emit names calls = emit names calls'
  callNames_eq : callNames calls = callNames calls'

theorem SameCalls.of_eq {cs cs' : List Call} (h : cs = cs') : SameCalls cs cs' :=
  ⟨fun _ => by rw [h], by rw [h]⟩

theorem SameCalls.fits {cs cs' : List Call} (h : SameCalls cs cs') {ns : List Text}
    (hfit : Fits ns cs) : Fits ns cs' := by
  refine ⟨?_, ?_⟩
  · rw [← h.emit_eq]
    exact hfit.length_lt
  · rw [← h.callNames_eq]
    exact hfit.name_length_lt

variable {t : LangType}

theorem encodeTypeFrom_of_not_array (md : String) (h : ∀ elTy elC, t ≠ .array elTy elC)
    (ds : List UInt64) :
    encodeTypeFrom md t ds = encodeDimensions ds ++ encodeTypeFrom md t [] := by
  have hnil : encodeDimensions [] = [] := rfl
  cases t with
  | array elTy elC => exact absurd rfl (h elTy elC)
  | fundamental t => simp only [encodeTypeFrom, hnil, nil_append]
  | rawPointer elTy | classType class_
  | enumType parent name underlyingType | functionPointer functionType | tuple elementTypes =>
    simp only [encodeTypeFrom, hnil, nil_append, append_assoc]

theorem encodeTypeFrom_eq (md : String) : ∀ t ds, encodeTypeFrom md t ds =
    encodeDimensions (ds ++ (arrayParts t).1) ++ encodeTypeFrom md (arrayParts t).2 []
  | .array elementType elementCount, ds => by
    rw [encodeTypeFrom, encodeTypeFrom_eq md elementType, arrayParts, append_assoc,
      singleton_append]
  | .fundamental _, ds | .rawPointer _, ds | .classType _, ds | .enumType .., ds
  | .functionPointer _, ds => by
    rw [arrayParts, append_nil]
    · exact encodeTypeFrom_of_not_array md (by simp) ds
    · simp
  | .tuple _, ds => by
    rw [arrayParts, append_nil]
    · exact encodeTypeFrom_of_not_array md (by simp) ds
    · simp

/-- What is written for an argument of a program are the low bits of its value. -/
theorem encodeTemplateArgImpl_low {P : Program} (md : String) {arg : TemplateArg}
    (h : P.HasArg arg) :
    encodeTemplateArgImpl md arg.low = encodeTemplateArgImpl md arg := by
  cases arg with
  | type type => rfl
  | variable_ type constexprValue =>
    obtain ⟨-, integerType, bits, hty, rfl⟩ := h
    have hint : type.integerType.isSome = true := by rw [hty]; rfl
    have hsc := integerType_not_array hint
    rw [TemplateArg.low, encodeTemplateArgImpl, encodeTemplateArgImpl, hsc]
    simp only [Bool.false_eq_true, if_false, map_cons, map_nil, headD_cons,
      encodeNumber, numberText_low]
  | typeTemplate typeTemplate => rfl

variable {as : List TemplateArg}

theorem encodeTemplateArgs_low {P : Program} (md : String) (h : P.HasArgs as) :
    encodeTemplateArgs md (as.map TemplateArg.low) = encodeTemplateArgs md as := by
  rw [Program.hasArgs_iff] at h
  rw [encodeTemplateArgs_eq, encodeTemplateArgs_eq, flatMap_map]
  exact flatMap_congr fun arg harg => encodeTemplateArgImpl_low md (h arg harg)

section

variable {P : Program} (md : String)

mutual

theorem encodeNamespacePostfix_eq : ∀ {sc : NamesScope}, P.HasScope sc →
    encodeNamespacePostfix md sc = (sc.components.map qnameOf).flatMap (QName.calls md)
  | .root, _ => by
    rw [encodeNamespacePostfix, NamesScope.components]
    rfl
  | .namespace_ parent name, h => by
    rw [Program.HasScope] at h
    rw [encodeNamespacePostfix, NamesScope.components, encodeNamespacePostfix_eq h.1]
    rfl
  | .members class_, h => by
    rw [Program.HasScope] at h
    rw [encodeNamespacePostfix, NamesScope.components]
    exact encodeClassName_eq h

theorem encodeClassName_eq : ∀ {cls : Class}, P.HasClass cls →
    encodeClassName md cls = (cls.components.map qnameOf).flatMap (QName.calls md)
  | .declared parent name, h => by
    rw [Program.HasClass] at h
    rw [encodeClassName, Class.components, encodeNamespacePostfix_eq h.1]
    rfl
  | .ofTemplate (.mk parent name index) signatureArgs, h => by
    rw [Program.HasClass] at h
    rw [encodeClassName, Class.components, encodeNamespacePostfix_eq h.1,
      ← encodeTemplateArgs_low md h.2.2.1]
    rfl
  | .coroutine _, h => by
    rw [Program.HasClass] at h
    exact absurd h not_false

end

def HasHead (P : Program) : Head → Prop
  | .type type => P.HasType type
  | .typeTemplate typeTemplate => P.HasArg (.typeTemplate typeTemplate)
  | .mark _ => True

theorem encodeType_same (h : P.HasType t) :
    SameCalls (encodeType md t) ((typeForm t).calls md) := by
  cases t with
  | fundamental t =>
    cases t <;> exact ⟨fun _ => rfl, rfl⟩
  | array elTy elementCount =>
    apply SameCalls.of_eq
    rw [encodeType, encodeTypeFrom_eq]
    rfl
  | rawPointer elTy | functionPointer functionType | tuple elementTypes =>
    apply SameCalls.of_eq
    rfl
  | classType class_ =>
    apply SameCalls.of_eq
    rw [encodeType, encodeTypeFrom, encodeClassName_eq md h]
    rfl
  | enumType parent name underlyingType =>
    apply SameCalls.of_eq
    rw [encodeType, encodeTypeFrom, encodeNamespacePostfix_eq md h.1]
    rfl

theorem encodeHead_same {head : Head} (h : HasHead P head) :
    SameCalls (encodeHead md head) ((headForm head).calls md) := by
  cases head with
  | type type => exact encodeType_same md h
  | typeTemplate typeTemplate =>
    cases typeTemplate
    apply SameCalls.of_eq
    rw [encodeHead, encodeNamespacePostfix_eq md h.1]
    rfl
  | mark mark => cases mark <;> exact ⟨fun _ => rfl, rfl⟩

end

/-! ## Sizes -/

noncomputable def headSize : Head → Nat
  | .type type => sizeOf type
  | .typeTemplate typeTemplate => sizeOf typeTemplate
  | .mark _ => 0

def Within (P : Program) (n : Nat) (head : Head) : Prop := HasHead P head ∧ headSize head < n

section

variable {P : Program} {n : Nat}

theorem argValid_low {arg : TemplateArg} (h : P.HasArg arg) (hsz : sizeOf arg ≤ n) :
    ArgValid (Within P n) arg.low := by
  cases arg with
  | type type =>
    rw [TemplateArg.type.sizeOf_spec] at hsz
    exact ⟨h, by rw [headSize]; omega⟩
  | variable_ type constexprValue =>
    rw [TemplateArg.variable_.sizeOf_spec] at hsz
    obtain ⟨hty, integerType, bits, hint, rfl⟩ := h
    refine ⟨⟨hty, by rw [headSize]; omega⟩, by rw [hint]; rfl, _, rfl⟩
  | typeTemplate typeTemplate =>
    rw [TemplateArg.typeTemplate.sizeOf_spec] at hsz
    exact ⟨h, by rw [headSize]; omega⟩

theorem argsValid_low (h : P.HasArgs as) (hsz : sizeOf as ≤ n) :
    ∀ arg ∈ as.map TemplateArg.low, ArgValid (Within P n) arg := by
  intro arg harg
  obtain ⟨arg, hmem, rfl⟩ := mem_map.1 harg
  have hlt := sizeOf_lt_of_mem hmem
  exact argValid_low (Program.hasArgs_iff.1 h arg hmem) (by omega)

mutual

theorem scope_qnames_valid : ∀ {sc : NamesScope}, P.HasScope sc → sizeOf sc ≤ n →
    ∀ q ∈ sc.components.map qnameOf, q.IsValid (Within P n)
  | .root, _, _ => by simp [NamesScope.components]
  | .namespace_ parent name, h, hsz => by
    rw [Program.HasScope] at h
    rw [NamesScope.namespace_.sizeOf_spec] at hsz
    rw [NamesScope.components, map_cons, forall_mem_cons]
    exact ⟨P.declared_name h.2, scope_qnames_valid h.1 (by omega)⟩
  | .members class_, h, hsz => by
    rw [Program.HasScope] at h
    rw [NamesScope.members.sizeOf_spec] at hsz
    rw [NamesScope.components]
    exact class_qnames_valid h (by omega)

theorem class_qnames_valid : ∀ {cls : Class}, P.HasClass cls → sizeOf cls ≤ n →
    ∀ q ∈ cls.components.map qnameOf, q.IsValid (Within P n)
  | .declared parent name, h, hsz => by
    rw [Program.HasClass] at h
    rw [Class.declared.sizeOf_spec] at hsz
    rw [Class.components, map_cons, forall_mem_cons]
    exact ⟨P.declared_name h.2, scope_qnames_valid h.1 (by omega)⟩
  | .ofTemplate (.mk parent name index) signatureArgs, h, hsz => by
    rw [Program.HasClass] at h
    obtain ⟨hpar, ⟨count, hlk⟩, hargs, -⟩ := h
    rw [Class.ofTemplate.sizeOf_spec, TypeTemplate.mk.sizeOf_spec] at hsz
    rw [Class.components, map_cons, forall_mem_cons]
    exact ⟨⟨P.declared_name hlk, argsValid_low hargs (by omega)⟩,
      scope_qnames_valid hpar (by omega)⟩
  | .coroutine _, h, _ => by
    rw [Program.HasClass] at h
    exact absurd h not_false

end

theorem arrayParts_within : ∀ {t : LangType}, P.HasType t →
    P.HasType (arrayParts t).2 ∧ sizeOf (arrayParts t).2 ≤ sizeOf t
  | .array elementType elementCount, h => by
    rw [Program.HasType] at h
    have hpts := arrayParts_within h
    rw [array.sizeOf_spec]
    exact ⟨hpts.1, hpts.2.trans (by omega)⟩
  | .fundamental _, h | .rawPointer _, h | .classType _, h | .enumType .., h
  | .functionPointer _, h => ⟨h, le_refl _⟩
  | .tuple _, h => ⟨h, le_refl _⟩

theorem typeForm_valid (h : P.HasType t) (hsz : sizeOf t < n + 1) :
    (typeForm t).IsValid (Within P n) := by
  cases t with
  | fundamental t => cases t <;> first | exact ⟨_, rfl⟩ | rfl
  | array elTy elementCount =>
    rw [Program.HasType] at h
    rw [array.sizeOf_spec] at hsz
    have hpts := arrayParts_within h
    exact ⟨cons_ne_nil _ _, hpts.1, by rw [headSize]; omega⟩
  | rawPointer elTy =>
    rw [rawPointer.sizeOf_spec] at hsz
    exact ⟨h, by rw [headSize]; omega⟩
  | classType class_ =>
    rw [classType.sizeOf_spec] at hsz
    exact class_qnames_valid h (by omega)
  | enumType parent name underlyingType =>
    rw [enumType.sizeOf_spec] at hsz
    rw [typeForm, HeadForm.IsValid, map_cons, forall_mem_cons]
    exact ⟨P.declared_name h.2, scope_qnames_valid h.1 (by omega)⟩
  | functionPointer fTy =>
    obtain ⟨params, ⟨returnType, returnValueType⟩, isUnsafe, convention, rr, rir, rp⟩ := fTy
    rw [functionPointer.sizeOf_spec, FunctionType.mk.sizeOf_spec,
      FunctionParam.mk.sizeOf_spec] at hsz
    refine ⟨⟨h.2, by rw [headSize, paramType]; omega⟩, ?_, ?_⟩
    · intro param (hp : param ∈ params)
      have hlt := sizeOf_lt_of_mem hp
      have hhas := Program.hasParams_iff.1 h.1 param hp
      obtain ⟨t, valueType⟩ := param
      rw [FunctionParam.mk.sizeOf_spec] at hlt
      exact ⟨hhas, by rw [headSize, paramType]; omega⟩
    · exact fun mark _ => ⟨trivial, by rw [headSize]; omega⟩
  | tuple elementTypes =>
    rw [tuple.sizeOf_spec] at hsz
    rw [typeForm, HeadForm.IsValid, forall_mem_singleton]
    intro t hty
    have hlt := sizeOf_lt_of_mem hty
    exact ⟨Program.hasTypes_iff.1 h t hty, by rw [headSize]; omega⟩

theorem headForm_valid {head : Head} (h : Within P (n + 1) head) :
    (headForm head).IsValid (Within P n) := by
  obtain ⟨h, hsz⟩ := h
  cases head with
  | type type => exact typeForm_valid h hsz
  | typeTemplate typeTemplate =>
    cases typeTemplate
    rw [headSize, TypeTemplate.mk.sizeOf_spec] at hsz
    rw [headForm, HeadForm.IsValid, map_cons, forall_mem_cons]
    exact ⟨P.declared_name h.2.1, scope_qnames_valid h.1 (by omega)⟩
  | mark mark =>
    cases mark with
    | unsafe_ => exact ⟨_, rfl⟩
    | pollution rp | references rr | innerReferences rir =>
      simp [headForm, HeadForm.IsValid, QName.IsValid, TemplateForm.IsValid]

end

/-! ## The form determines the head -/

def keywordHead? (name : Text) : Option Head :=
  if name = Keyword.byte8_.text then some (.type (.fundamental .byte8_))
  else if name = Keyword.byte16_.text then some (.type (.fundamental .byte16_))
  else if name = Keyword.byte32_.text then some (.type (.fundamental .byte32_))
  else if name = Keyword.byte64_.text then some (.type (.fundamental .byte64_))
  else if name = Keyword.byte128_.text then some (.type (.fundamental .byte128_))
  else if name = Keyword.unsafe_.text then some (.mark .unsafe_)
  else none

def headOf? : HeadForm → Option Head
  | .simple type => some (.type (.fundamental type))
  | .keyword name => keywordHead? name
  | .array dimensions elementType => some (.type (nestedArray (dimensions, elementType)))
  | .rawPointer elementType => some (.type (.rawPointer elementType))
  | .functionPointer functionType => some (.type (.functionPointer functionType))
  | .named [.template (.tuple elementTypes)] => some (.type (.tuple elementTypes))
  | .named [.template (.pollution rp)] => some (.mark (.pollution rp))
  | .named [.template (.references rr)] => some (.mark (.references rr))
  | .named [.template (.innerReferences rir)] => some (.mark (.innerReferences rir))
  | .named _ | .enum_ _ => none

def names? : HeadForm → Option (List QName)
  | .named names | .enum_ names => some names
  | _ => none

inductive DeclaredHead (P : Program) : Head → NamesScope → Component → Prop
  | class_ {parent name} : P.HasScope parent → P.lookup parent name = some .class_ →
    DeclaredHead P (.type (.classType (.declared parent name))) parent ⟨name, none⟩
  | enum_ {parent name underlyingType} : P.HasScope parent →
    P.lookup parent name = some (.enum_ underlyingType) →
    DeclaredHead P (.type (.enumType parent name underlyingType)) parent ⟨name, none⟩
  | typeTemplate {parent name} : P.HasScope parent → P.lookup parent name = some (.typeTemplates 1) →
    DeclaredHead P (.typeTemplate (.mk parent name 0)) parent ⟨name, none⟩
  | template {parent name index args lowArgs} : P.HasScope parent →
    P.HasClass (.ofTemplate (.mk parent name index) args) → args.map TemplateArg.low = lowArgs →
    DeclaredHead P (.type (.classType (.ofTemplate (.mk parent name index) args))) parent
      ⟨name, some lowArgs⟩

section

variable {P : Program} {head : Head}

theorem declaredHead_or_determined (h : HasHead P head) :
    headOf? (headForm head) = some head ∨
      ∃ parent component, DeclaredHead P head parent component := by
  cases head with
  | type type =>
    cases type with
    | fundamental type =>
      left
      cases type <;> rfl
    | array elementType elementCount =>
      left
      exact congrArg (fun type => some (Head.type type))
        (nestedArray_arrayParts (.array elementType elementCount))
    | rawPointer elementType | functionPointer functionType | tuple elementTypes => exact .inl rfl
    | enumType parent name underlyingType => exact .inr ⟨parent, _, .enum_ h.1 h.2⟩
    | classType class_ =>
      right
      cases class_ with
      | declared parent name => exact ⟨parent, _, .class_ h.1 h.2⟩
      | ofTemplate classTemplate args =>
        obtain ⟨parent, name, index⟩ := classTemplate
        exact ⟨parent, _, .template h.1 h rfl⟩
      | coroutine description =>
        exact absurd h not_false
  | typeTemplate typeTemplate =>
    obtain ⟨parent, name, index⟩ := typeTemplate
    obtain ⟨hpar, hlk, rfl⟩ := h
    exact .inr ⟨parent, _, .typeTemplate hpar hlk⟩
  | mark mark =>
    left
    cases mark with
    | unsafe_ => rfl
    | pollution rp => rfl
    | references rr => rfl
    | innerReferences rir => rfl

variable {p : NamesScope} {cmp : Component}

theorem DeclaredHead.has_parent (h : DeclaredHead P head p cmp) : P.HasScope p := by
  cases h <;> assumption

theorem DeclaredHead.names (h : DeclaredHead P head p cmp) :
    names? (headForm head) = some ((cmp :: p.components).map qnameOf) := by
  cases h with
  | class_ | enum_ | typeTemplate => rfl
  | template _ _ hlow =>
    subst hlow
    rw [headForm]
    rfl

theorem DeclaredHead.not_determined (h : DeclaredHead P head p cmp) :
    headOf? (headForm head) = none := by
  cases h with
  | class_ | enum_ | typeTemplate => rfl
  | template =>
    rw [headForm]
    cases p.components <;> rfl

theorem DeclaredHead.eq (hne : P.DistinctInstances) {head' : Head}
    (h : DeclaredHead P head p cmp) (h' : DeclaredHead P head' p cmp) : head = head' := by
  cases h with
  | class_ _ hlk =>
    cases h' with
    | class_ => rfl
    | enum_ _ hlk' | typeTemplate _ hlk' => cases hlk.symm.trans hlk'
  | enum_ _ hlk =>
    cases h' with
    | class_ _ hlk' | typeTemplate _ hlk' => cases hlk.symm.trans hlk'
    | enum_ _ hlk' =>
      cases hlk.symm.trans hlk'
      rfl
  | typeTemplate _ hlk =>
    cases h' with
    | class_ _ hlk' | enum_ _ hlk' => cases hlk.symm.trans hlk'
    | typeTemplate => rfl
  | template _ hcl hlow =>
    cases h' with
    | template _ hcl' hlow' =>
      obtain ⟨rfl, rfl⟩ := hne hcl hcl' (hlow.trans hlow'.symm)
      rfl

theorem head_eq_of_form (hne : P.DistinctInstances) {head' : Head} (h : HasHead P head)
    (h' : HasHead P head') (heq : headForm head = headForm head') : head = head' := by
  rcases declaredHead_or_determined h with hhd | ⟨parent, component, hdecl⟩ <;>
    rcases declaredHead_or_determined h' with hhd' | ⟨parent', component', hdecl'⟩
  · rw [heq, hhd'] at hhd
    exact (some.inj hhd).symm
  · rw [heq, hdecl'.not_determined] at hhd
    cases hhd
  · rw [← heq, hdecl.not_determined] at hhd'
    cases hhd'
  · have hns := hdecl.names
    rw [heq, hdecl'.names, some.injEq] at hns
    have hcs := map_injective_iff.2 qnameOf_injective hns
    rw [cons.injEq] at hcs
    obtain ⟨rfl, hpars⟩ := hcs
    obtain rfl := Program.HasScope.eq_of_components hne hdecl'.has_parent hdecl.has_parent hpars
    exact hdecl.eq hne hdecl'

end

/-! ## Reading types -/

variable {md : String} {P : Program}

theorem QName.IsValid.named {Valid : Head → Prop} {q : QName}
    (h : q.IsValid Valid) : Named (q.calls md) := by
  obtain ⟨b, rest, hstr, -⟩ := h.exists_cons md
  intro name hn
  rw [QName.callNames_calls, mem_singleton] at hn
  rw [hn, hstr]
  exact cons_ne_nil _ _

theorem HeadForm.IsValid.named {Valid : Head → Prop}
    (hrd : Readable md Valid) {form : HeadForm} (h : form.IsValid Valid) :
    Named (form.calls md) := by
  have hns : ∀ {qs : List QName}, (∀ q ∈ qs, q.IsValid Valid) →
      Named (qs.flatMap (QName.calls md)) :=
    fun hok => named_flatMap fun q hq => (hok q hq).named
  cases form with
  | simple type | keyword name => exact named_of_callNames_nil rfl
  | array ds elTy =>
    exact named_append.2 ⟨named_of_callNames_nil (callNames_encodeDimensions ds), hrd.named _ h.2⟩
  | rawPointer elTy =>
    exact named_append.2 ⟨named_of_callNames_nil rfl, hrd.named _ h⟩
  | functionPointer functionType =>
    exact named_append.2 ⟨named_of_callNames_nil rfl, named_encodeFunctionType hrd h⟩
  | named ns | enum_ ns =>
    exact named_append.2 ⟨named_append.2 ⟨named_of_callNames_nil rfl, hns h⟩,
      named_of_callNames_nil rfl⟩

/-- All heads of a program can be read.  The induction is on the size of the heads. -/
theorem readable (hmod : ModifierFits md)
    (hne : P.DistinctInstances) (n : Nat) : Readable md (Within P n) := by
  induction n with
  | zero =>
    exact ⟨fun head h => absurd h.2 (not_lt_zero _),
      fun ns _ head _ _ _ h => absurd h.1.2 (not_lt_zero _)⟩
  | succ n ih =>
    refine ⟨?_, ?_⟩
    · intro head h
      have hnam := (headForm_valid h).named ih
      rwa [Msvc.Named, ← (encodeHead_same md h.1).callNames_eq] at hnam
    · rintro ns hlen head head' rest rest' ⟨h, hfit⟩ ⟨h', hfit'⟩ _ _ heq
      have hsame := encodeHead_same md h.1
      have heq' := encodeHead_same md h'.1
      dsimp only at heq
      rw [hsame.emit_eq, heq'.emit_eq] at heq
      obtain ⟨hfor, hrs⟩ := form_reads hmod ih ns hlen
        ⟨headForm_valid h, hsame.fits hfit⟩ ⟨headForm_valid h', heq'.fits hfit'⟩
        trivial trivial heq
      exact ⟨head_eq_of_form hne h.1 h'.1 hfor, hrs⟩

variable (is32Bit : Bool)

theorem modifierFits : ModifierFits (pointerTypesModifierOf is32Bit) := by
  rw [ModifierFits, StartsWith]
  cases is32Bit <;> decide

theorem mangleType_injective_of_distinct (hne : P.DistinctInstances)
    (is32Bit : Bool) {t' : LangType} (h : P.HasType t) (h' : P.HasType t')
    (hsz : (mangleType is32Bit t).length < 2 ^ 32)
    (heq : mangleType is32Bit t = mangleType is32Bit t') : t = t' := by
  have hrd := readable (modifierFits is32Bit) hne (sizeOf t + sizeOf t' + 1)
  have hwi : Within P (sizeOf t + sizeOf t' + 1) (.type t) := ⟨h, by rw [headSize]; omega⟩
  have hwi' : Within P (sizeOf t + sizeOf t' + 1) (.type t') := ⟨h', by rw [headSize]; omega⟩
  obtain ⟨hemit, hfit⟩ := written_eq (hrd.named _ hwi) hsz
  have hsz' : (mangleType is32Bit t').length < 2 ^ 32 := heq ▸ hsz
  obtain ⟨hemit', hfit'⟩ := written_eq (hrd.named _ hwi') hsz'
  have htex : emit [] (encodeHead (pointerTypesModifierOf is32Bit) (.type t)) ++ [] =
      emit [] (encodeHead (pointerTypesModifierOf is32Bit) (.type t')) ++ [] := by
    rw [← hemit, ← hemit']
    exact congrArg (· ++ []) heq
  have hread : Head.type t = .type t' ∧ ([] : Text) = [] :=
    hrd.reads [] (zero_le _) ⟨hwi, hfit⟩ ⟨hwi', hfit'⟩ trivial trivial htex
  exact Head.type.inj hread.1

/-- The values are mangled by their low bits, whichever template of the name they are for. -/
theorem mangleType_eq_of_low {p : NamesScope} {name : Text}
    {i i' : Nat} {as' : List TemplateArg}
    (h : P.HasClass (.ofTemplate (.mk p name i) as))
    (h' : P.HasClass (.ofTemplate (.mk p name i') as'))
    (hlow : as.map TemplateArg.low = as'.map TemplateArg.low) :
    mangleType is32Bit (.classType (.ofTemplate (.mk p name i) as)) =
      mangleType is32Bit (.classType (.ofTemplate (.mk p name i') as')) := by
  have hcs : (Class.ofTemplate (.mk p name i) as).components =
      (Class.ofTemplate (.mk p name i') as').components := by
    rw [Class.components, Class.components, hlow]
  rw [mangleType, mangleType, encodeType, encodeType, encodeTypeFrom, encodeTypeFrom,
    encodeClassName_eq _ h, encodeClassName_eq _ h', hcs]

theorem distinct_of_mangleType_injective (hinj : ∀ t t', P.HasType t → P.HasType t' →
      mangleType is32Bit t = mangleType is32Bit t' → t = t') : P.DistinctInstances := by
  intro parent name index index' args args' h h' hlow
  have heq := hinj _ _ (by rwa [Program.HasType]) (by rwa [Program.HasType])
    (mangleType_eq_of_low is32Bit h h' hlow)
  injection heq with hcl
  injection hcl with htem hargs
  injection htem with _ _ hix
  exact ⟨hix, hargs⟩

theorem low_injective {bW : Nat} (hw : bW ≤ 64) (isSigned : Bool) {bs bs' : BitVec bW}
    (h : APInt.low ⟨bW, bs⟩ isSigned = APInt.low ⟨bW, bs'⟩ isSigned) :
    bs = bs' := by
  have hbts := eq_of_heq (APInt.mk.inj h).2
  cases isSigned with
  | false =>
    apply BitVec.eq_of_toNat_eq
    have htoNat := congrArg BitVec.toNat hbts
    have hle : 2 ^ bW ≤ 2 ^ 64 := Nat.pow_le_pow_right (by decide) hw
    simp only [Bool.false_eq_true, if_false, BitVec.toNat_setWidth] at htoNat
    rwa [mod_eq_of_lt (bs.isLt.trans_le hle), mod_eq_of_lt (bs'.isLt.trans_le hle)] at htoNat
  | true =>
    apply BitVec.eq_of_toInt_eq
    have htoInt := congrArg BitVec.toInt hbts
    simp only [if_true] at htoInt
    rwa [BitVec.toInt_signExtend_of_le hw, BitVec.toInt_signExtend_of_le hw] at htoInt

theorem numberText_high_bit {bW : Nat} (hw : 64 < bW) (isSigned : Bool) :
    numberText ⟨bW, BitVec.ofNat bW (2 ^ 64)⟩ isSigned =
      numberText ⟨bW, BitVec.ofNat bW 0⟩ isSigned := by
  have hlow : ∀ bs, APInt.low ⟨bW, bs⟩ isSigned = ⟨64, bs.setWidth 64⟩ := by
    intro bs
    cases isSigned with
    | false => rfl
    | true => rw [APInt.low, if_pos rfl, BitVec.signExtend_eq_setWidth_of_le bs hw.le]
  have hz : (BitVec.ofNat bW (2 ^ 64)).setWidth 64 = (BitVec.ofNat bW 0).setWidth 64 := by
    apply BitVec.eq_of_toNat_eq
    rw [BitVec.toNat_setWidth, BitVec.toNat_setWidth, BitVec.toNat_ofNat,
      mod_mod_of_dvd _ (pow_dvd_pow 2 hw.le), BitVec.toNat_zero]
    rfl
  rw [← numberText_low, hlow, hz, ← hlow, numberText_low]

theorem number_decodes_iff (bW : Nat) (isSigned : Bool) :
    Decodes (fun bs : BitVec bW => numberText ⟨bW, bs⟩ isSigned) (fun _ => True)
      (fun _ => True) ↔ bW ≤ 64 := by
  constructor
  · intro h
    by_contra hw
    have hbts := (h trivial trivial trivial trivial (congrArg (· ++ [])
      (numberText_high_bit (Nat.lt_of_not_le hw) isSigned))).1
    have htoNat := congrArg BitVec.toNat hbts
    rw [BitVec.toNat_ofNat, BitVec.toNat_zero,
      mod_eq_of_lt (Nat.pow_lt_pow_right (by decide) (Nat.lt_of_not_le hw))] at htoNat
    exact absurd htoNat (by decide)
  · intro hw bs bs' rest rest' _ _ _ _ heq
    dsimp only at heq
    rw [← numberText_low, ← numberText_low ⟨bW, bs'⟩] at heq
    have hlow := numberText_decodes isSigned rfl rfl trivial trivial heq
    exact ⟨low_injective hw isSigned hlow.1, hlow.2⟩

/-! ## Types -/

/-- Different types have different names, and different numbers of one width different texts, if
no classes made from templates of one name agree in the low bits of their arguments and the
width is at most 64.  The slots of back references bound the length of a name. -/
theorem mangleType_injective_iff (P : Program) (is32Bit : Bool) :
    (P.DistinctInstances → ∀ t t' : LangType, P.HasType t → P.HasType t' →
      (mangleType is32Bit t).length < 2 ^ 32 →
        mangleType is32Bit t = mangleType is32Bit t' → t = t') ∧
    ((∀ t t' : LangType, P.HasType t → P.HasType t' →
      mangleType is32Bit t = mangleType is32Bit t' → t = t') → P.DistinctInstances) ∧
    ∀ (bitWidth : Nat) (isSigned : Bool),
      Decodes (fun bits : BitVec bitWidth => numberText ⟨bitWidth, bits⟩ isSigned) (fun _ => True)
        (fun _ => True) ↔ bitWidth ≤ 64 :=
  ⟨fun hdistinct _ _ h h' hsize heq => mangleType_injective_of_distinct hdistinct is32Bit h h' hsize heq,
    distinct_of_mangleType_injective is32Bit, number_decodes_iff⟩

def templateWithValues (values : List (BitVec 128)) : Program where
  lookup
    | .root, name => if name = asciiText "S" then some (.typeTemplates 1) else none
    | _, _ => none
  generated classTemplate signatureArgs := classTemplate = .mk .root (asciiText "S") 0 ∧
    ∃ value ∈ values, signatureArgs = [.variable_ (.fundamental .u128_) [⟨128, value⟩]]
  bitWidth
    | .u128_ => 128
    | _ => 32
  declared_name := by
    intro scope name entity h
    cases scope with
    | root =>
      dsimp only at h
      split at h
      · next hname =>
        subst hname
        refine Or.inl ⟨isIdentifier_asciiText (by decide), ?_⟩
        rintro ⟨keyword, hkeyword⟩
        revert hkeyword
        cases keyword <;> decide
      · cases h
    | namespace_ parent name => cases h
    | members class_ => cases h

def classWithValue (value : BitVec 128) : Class :=
  .ofTemplate (.mk .root (asciiText "S") 0) [.variable_ (.fundamental .u128_) [⟨128, value⟩]]

theorem classWithValue_injective : Injective classWithValue := by
  intro value value' h
  injection h with _ hargs
  injection hargs with harg
  injection harg with _ hvs
  injection hvs with hv
  injection hv with _ hbts

theorem hasClass_classWithValue {vs : List (BitVec 128)} {v : BitVec 128}
    (h : v ∈ vs) : (templateWithValues vs).HasClass (classWithValue v) := by
  exact ⟨trivial, ⟨1, rfl⟩, ⟨⟨trivial, .u128_, v, rfl, rfl⟩, trivial⟩, rfl, v, h, rfl⟩

theorem low_classWithValue {v v' : BitVec 128} (h : v.setWidth 64 = v'.setWidth 64) :
    [TemplateArg.variable_ (.fundamental .u128_) [⟨128, v⟩]].map TemplateArg.low =
      [TemplateArg.variable_ (.fundamental .u128_) [⟨128, v'⟩]].map TemplateArg.low :=
  congrArg (fun bs => [TemplateArg.variable_ (.fundamental .u128_) [⟨64, bs⟩]]) h

theorem distinct_templateWithValues {vs : List (BitVec 128)}
    (h : ∀ v ∈ vs, ∀ v' ∈ vs, v.setWidth 64 = v'.setWidth 64 →
      v = v') : (templateWithValues vs).DistinctInstances := by
  intro parent name index index' args args' hcl hcl' hlow
  obtain ⟨-, -, -, htem, v, hv, rfl⟩ := hcl
  obtain ⟨-, -, -, htem', v', hv', rfl⟩ := hcl'
  injection htem with _ _ hix
  injection htem' with _ _ hi'
  injection hlow with harg
  injection harg with _ hnums
  injection hnums with hnum
  injection hnum with _ hbts
  rw [h v hv v' hv' hbts]
  exact ⟨hix.trans hi'.symm, rfl⟩

theorem mangleType_classWithValue_ne : (templateWithValues [1, 2]).DistinctInstances ∧
    mangleType true (.classType (classWithValue 1)) ≠
      mangleType true (.classType (classWithValue 2)) := by
  have hdistinct : (templateWithValues [1, 2]).DistinctInstances := by
    apply distinct_templateWithValues
    intro value hvalue value' hvalue' hlow
    rcases mem_pair.1 hvalue with rfl | rfl <;> rcases mem_pair.1 hvalue' with rfl | rfl
    · rfl
    · exact absurd hlow (by decide +kernel)
    · exact absurd hlow (by decide +kernel)
    · rfl
  have hone : (templateWithValues [1, 2]).HasClass (classWithValue 1) :=
    hasClass_classWithValue (by decide)
  have htwo : (templateWithValues [1, 2]).HasClass (classWithValue 2) :=
    hasClass_classWithValue (by decide)
  refine ⟨hdistinct, fun hnames => ?_⟩
  have heq := (mangleType_injective_iff (templateWithValues [1, 2]) true).1 hdistinct _ _
    (by rwa [Program.HasType]) (by rwa [Program.HasType]) (by decide +kernel) hnames
  exact absurd (classWithValue_injective (classType.inj heq)) (by decide +kernel)

/-- The program `template</ u128 value /> struct S</ value />{}` with the classes for 1 and 2^64 + 1. -/
theorem mangleType_not_injective :
    ¬∀ (P : Program) (is32Bit : Bool) (t t' : LangType), P.HasType t → P.HasType t' →
      mangleType is32Bit t = mangleType is32Bit t' → t = t' := by
  intro h
  have hone : (templateWithValues [1, 0x10000000000000001]).HasClass (classWithValue 1) :=
    hasClass_classWithValue (by decide)
  have hother : (templateWithValues [1, 0x10000000000000001]).HasClass (classWithValue 0x10000000000000001) :=
    hasClass_classWithValue (by decide)
  have heq := h _ true (.classType (classWithValue 1)) (.classType (classWithValue 0x10000000000000001))
    (by rwa [Program.HasType]) (by rwa [Program.HasType])
    (mangleType_eq_of_low true hone hother (low_classWithValue (by decide +kernel)))
  exact absurd (classWithValue_injective (classType.inj heq)) (by decide +kernel)

end USprache.CodeBuilder.WithArgs.ManglerMsvc
