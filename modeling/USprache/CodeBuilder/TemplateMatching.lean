import USprache.CodeBuilder.SignatureParams

/-!
# Matching of template arguments

An argument is matched against a parameter of a template signature.  Template parameters are
deduced on the way: the first thing a parameter stands for is what it stands for everywhere.
-/

namespace USprache.CodeBuilder.WithArgs

open Option

/-- `TemplateParameter::kind_data`.  The type of a value parameter may depend on other
parameters. -/
inductive TemplateParamKind where
  | type
  | typeTemplate
  | variable_ (type : SignatureParam)

/-- The namespace of template arguments.  What is not there is not deduced yet. -/
abbrev DeducedArgs := Nat → Option TemplateArg

def DeducedArgs.deduce (args : DeducedArgs) (index : Nat) (arg : TemplateArg) : DeducedArgs :=
  fun i => if i = index then some arg else args i

@[simp]
theorem deduce_self (args : DeducedArgs) (index : Nat) (arg : TemplateArg) :
    args.deduce index arg index = some arg := if_pos rfl

variable {index : Nat}

theorem deduce_of_ne {args : DeducedArgs} {i : Nat} {arg : TemplateArg} (h : i ≠ index) :
    args.deduce index arg i = args i := if_neg h

/-- What matching needs of the program: the width of `size_type`, and the values of the default
arguments of class templates. -/
structure MatchingContext where
  sizeTypeBits : Nat
  defaultArg : TypeTemplate → List TemplateArg → Nat → Option TemplateArg

variable (ctx : MatchingContext)

def MatchingContext.sizeVariable (elementCount : UInt64) : TemplateArg :=
  .variable_ (.fundamental .size_type_) [⟨ctx.sizeTypeBits, BitVec.ofNat _ elementCount.toNat⟩]

/-- The arguments behind the first `count` ones are the default ones. -/
def MatchingContext.restIsDefault (classTemplate : TypeTemplate)
    (signatureArgs : List TemplateArg) (count : Nat) : Bool :=
  (List.range signatureArgs.length).all fun i =>
    decide (i < count) || decide (ctx.defaultArg classTemplate signatureArgs i = signatureArgs[i]?)

section Matching

variable (templateParams : List TemplateParamKind)
  (matchType : SignatureParam → LangType → DeducedArgs → Option DeducedArgs)

def matchTemplateParam (index : Nat) (templateArg : TemplateArg) (args : DeducedArgs) :
    Option DeducedArgs :=
  match args index with
  | none =>
    match templateArg, templateParams[index]? with
    | .type _, some .type => some (args.deduce index templateArg)
    | .variable_ type _, some (.variable_ paramType) =>
      if isValidForTemplateVariableArgument type then
        (matchType paramType type args).map fun args => args.deduce index templateArg
      else none
    | .typeTemplate _, some .typeTemplate => some (args.deduce index templateArg)
    | _, _ => none
  | some prevArg => if prevArg = templateArg then some args else none

mutual

/-- `MatchTemplateArg`, where the types of value parameters are matched by `matchType`. -/
def matchArg : SignatureParam → TemplateArg → DeducedArgs → Option DeducedArgs
  | .type type, templateArg, args => if templateArg = .type type then some args else none
  | .variable_ type constexprValue, templateArg, args =>
    if templateArg = .variable_ type constexprValue then some args else none
  | .typeTemplate typeTemplate, templateArg, args =>
    if templateArg = .typeTemplate typeTemplate then some args else none
  | .templateParam index _, templateArg, args =>
    matchTemplateParam templateParams matchType index templateArg args
  | .array elementCount elementType, templateArg, args =>
    match templateArg with
    | .type (.array givenElementType givenElementCount) => do
      let args ← matchArg elementType (.type givenElementType) args
      matchArg elementCount (ctx.sizeVariable givenElementCount) args
    | _ => none
  | .tuple elementTypes, templateArg, args =>
    match templateArg with
    | .type (.tuple givenElementTypes) =>
      if givenElementTypes.length = elementTypes.length then
        matchArgs elementTypes (givenElementTypes.map .type) args
      else none
    | _ => none
  | .rawPointer elementType, templateArg, args =>
    match templateArg with
    | .type (.rawPointer givenElementType) => matchArg elementType (.type givenElementType) args
    | _ => none
  | .function returnType returnValueType isUnsafe callingConvention params, templateArg, args =>
    match templateArg with
    | .type (.functionPointer given) =>
      if given.isUnsafe = isUnsafe ∧ given.callingConvention = callingConvention ∧
        given.returned.valueType = returnValueType then do
        let args ← matchArg returnType (.type given.returned.type) args
        if given.params.length = params.length then matchFunctionParams params given.params args
        else none
      else none
    | _ => none
  | .coroutine kind returnType returnValueType returnReferences returnInnerReferences
      innerReferences nonSync, templateArg, args =>
    match templateArg with
    | .type (.classType (.coroutine (.mk givenKind given givenReturnReferences
        givenReturnInnerReferences givenInnerReferences givenNonSync))) =>
      if givenKind = kind ∧ given.valueType = returnValueType ∧
        givenReturnReferences = returnReferences ∧
        givenReturnInnerReferences = returnInnerReferences ∧
        givenInnerReferences = innerReferences ∧ givenNonSync = nonSync then
        matchArg returnType (.type given.type) args
      else none
    | _ => none
  | .specializedTemplate typeTemplates params, templateArg, args =>
    match templateArg with
    | .type (.classType (.ofTemplate classTemplate signatureArgs)) =>
      if signatureArgs.length < params.length then none
      else do
        let args ← matchTypeTemplates typeTemplates classTemplate args
        let args ← matchArgs params signatureArgs args
        if ctx.restIsDefault classTemplate signatureArgs params.length then some args else none
    | _ => none
termination_by structural param => param

def matchTypeTemplates : List SignatureParam → TypeTemplate → DeducedArgs → Option DeducedArgs
  | [], _, _ => none
  | typeTemplate :: typeTemplates, classTemplate, args =>
    match matchArg typeTemplate (.typeTemplate classTemplate) args with
    | some args => some args
    | none => matchTypeTemplates typeTemplates classTemplate args
termination_by structural typeTemplates => typeTemplates

/-- The loop over elements or parameters, of which there are not more than arguments. -/
def matchArgs : List SignatureParam → List TemplateArg → DeducedArgs → Option DeducedArgs
  | param :: params, templateArg :: templateArgs, args => do
    let args ← matchArg param templateArg args
    matchArgs params templateArgs args
  | [], _, args => some args
  | _ :: _, [], _ => none
termination_by structural params => params

def matchFunctionParams : List FunctionSignatureParam → List FunctionParam → DeducedArgs →
    Option DeducedArgs
  | .mk type valueType :: params, given :: givens, args =>
    if given.valueType = valueType then do
      let args ← matchArg type (.type given.type) args
      matchFunctionParams params givens args
    else none
  | [], _, args => some args
  | _ :: _, [], _ => none
termination_by structural params => params

end

end Matching

/-- `MatchTemplateArg`, as deep as the types of value parameters are looked at. -/
def matchTemplateArg (ctx : MatchingContext) (templateParams : List TemplateParamKind) :
    Nat → SignatureParam → TemplateArg → DeducedArgs → Option DeducedArgs
  | 0 => fun _ _ _ => none
  | depth + 1 => matchArg ctx templateParams fun paramType type args =>
      matchTemplateArg ctx templateParams depth paramType (.type type) args

section Describes

variable (holds : Nat → TemplateArg → Prop)

mutual

/-- The argument has the form of the parameter, and what `holds` says of the template parameters
is true of the arguments they stand for. -/
def Describes : SignatureParam → TemplateArg → Prop
  | .type type, templateArg => templateArg = .type type
  | .variable_ type constexprValue, templateArg => templateArg = .variable_ type constexprValue
  | .typeTemplate typeTemplate, templateArg => templateArg = .typeTemplate typeTemplate
  | .templateParam index _, templateArg => holds index templateArg
  | .array elementCount elementType, templateArg =>
    match templateArg with
    | .type (.array givenElementType givenElementCount) =>
      Describes elementType (.type givenElementType) ∧
        Describes elementCount (ctx.sizeVariable givenElementCount)
    | _ => False
  | .tuple elementTypes, templateArg =>
    match templateArg with
    | .type (.tuple givenElementTypes) =>
      givenElementTypes.length = elementTypes.length ∧
        DescribesAll elementTypes (givenElementTypes.map .type)
    | _ => False
  | .rawPointer elementType, templateArg =>
    match templateArg with
    | .type (.rawPointer givenElementType) => Describes elementType (.type givenElementType)
    | _ => False
  | .function returnType returnValueType isUnsafe callingConvention params, templateArg =>
    match templateArg with
    | .type (.functionPointer given) =>
      (given.isUnsafe = isUnsafe ∧ given.callingConvention = callingConvention ∧
        given.returned.valueType = returnValueType) ∧
      Describes returnType (.type given.returned.type) ∧ given.params.length = params.length ∧
        DescribesFunctionParams params given.params
    | _ => False
  | .coroutine kind returnType returnValueType returnReferences returnInnerReferences
      innerReferences nonSync, templateArg =>
    match templateArg with
    | .type (.classType (.coroutine (.mk givenKind given givenReturnReferences
        givenReturnInnerReferences givenInnerReferences givenNonSync))) =>
      (givenKind = kind ∧ given.valueType = returnValueType ∧
        givenReturnReferences = returnReferences ∧
        givenReturnInnerReferences = returnInnerReferences ∧
        givenInnerReferences = innerReferences ∧ givenNonSync = nonSync) ∧
      Describes returnType (.type given.type)
    | _ => False
  | .specializedTemplate typeTemplates params, templateArg =>
    match templateArg with
    | .type (.classType (.ofTemplate classTemplate signatureArgs)) =>
      params.length ≤ signatureArgs.length ∧ DescribesTemplate typeTemplates classTemplate ∧
        DescribesAll params signatureArgs ∧
        ctx.restIsDefault classTemplate signatureArgs params.length = true
    | _ => False
termination_by structural param => param

def DescribesTemplate : List SignatureParam → TypeTemplate → Prop
  | [], _ => False
  | typeTemplate :: typeTemplates, classTemplate =>
    Describes typeTemplate (.typeTemplate classTemplate) ∨
      DescribesTemplate typeTemplates classTemplate
termination_by structural typeTemplates => typeTemplates

def DescribesAll : List SignatureParam → List TemplateArg → Prop
  | param :: params, templateArg :: templateArgs =>
    Describes param templateArg ∧ DescribesAll params templateArgs
  | [], _ => True
  | _ :: _, [] => False
termination_by structural params => params

def DescribesFunctionParams : List FunctionSignatureParam → List FunctionParam → Prop
  | .mk type valueType :: params, given :: givens =>
    given.valueType = valueType ∧ Describes type (.type given.type) ∧
      DescribesFunctionParams params givens
  | [], _ => True
  | _ :: _, [] => False
termination_by structural params => params

end

variable {ctx holds} {templateArg : TemplateArg}

theorem describes_array {elC elTy : SignatureParam}
    (h : Describes ctx holds (.array elC elTy) templateArg) :
    ∃ t c, templateArg = .type (.array t c) ∧ Describes ctx holds elTy (.type t) ∧
        Describes ctx holds elC (ctx.sizeVariable c) := by
  unfold Describes at h
  split at h
  · exact ⟨_, _, rfl, h⟩
  · exact h.elim

theorem describes_tuple {elTs : List SignatureParam}
    (h : Describes ctx holds (.tuple elTs) templateArg) :
    ∃ ts, templateArg = .type (.tuple ts) ∧ ts.length = elTs.length ∧
      DescribesAll ctx holds elTs (ts.map .type) := by
  unfold Describes at h
  split at h
  · exact ⟨_, rfl, h⟩
  · exact h.elim

theorem describes_rawPointer {elTy : SignatureParam}
    (h : Describes ctx holds (.rawPointer elTy) templateArg) :
    ∃ t, templateArg = .type (.rawPointer t) ∧ Describes ctx holds elTy (.type t) := by
  unfold Describes at h
  split at h
  · exact ⟨_, rfl, h⟩
  · exact h.elim

theorem describes_function {returnType returnValueType isUnsafe callingConvention params}
    (h : Describes ctx holds
      (.function returnType returnValueType isUnsafe callingConvention params) templateArg) :
    ∃ given, templateArg = .type (.functionPointer given) ∧
      (given.isUnsafe = isUnsafe ∧ given.callingConvention = callingConvention ∧
        given.returned.valueType = returnValueType) ∧
      Describes ctx holds returnType (.type given.returned.type) ∧
      given.params.length = params.length ∧ DescribesFunctionParams ctx holds params given.params := by
  unfold Describes at h
  split at h
  · exact ⟨_, rfl, h⟩
  · exact h.elim

theorem describes_coroutine {kind returnType returnValueType returnReferences
      returnInnerReferences innerReferences nonSync}
    (h : Describes ctx holds (.coroutine kind returnType returnValueType returnReferences
      returnInnerReferences innerReferences nonSync) templateArg) :
    ∃ given, given.valueType = returnValueType ∧
      templateArg = .type (.classType (.coroutine (.mk kind given returnReferences
        returnInnerReferences innerReferences nonSync))) ∧
      Describes ctx holds returnType (.type given.type) := by
  unfold Describes at h
  split at h
  · obtain ⟨⟨rfl, hvTy, rfl, rfl, rfl, rfl⟩, hty⟩ := h
    exact ⟨_, hvTy, rfl, hty⟩
  · exact h.elim

theorem describes_specializedTemplate {tyTemplates params : List SignatureParam}
    (h : Describes ctx holds (.specializedTemplate tyTemplates params) templateArg) :
    ∃ template signatureAs, templateArg = .type (.classType (.ofTemplate template signatureAs)) ∧
      params.length ≤ signatureAs.length ∧
      DescribesTemplate ctx holds tyTemplates template ∧
      DescribesAll ctx holds params signatureAs ∧
      ctx.restIsDefault template signatureAs params.length = true := by
  unfold Describes at h
  split at h
  · exact ⟨_, _, rfl, h⟩
  · exact h.elim

end Describes

/-- How deduced arguments may grow, and what stays true of them. -/
structure Deduction where
  good : DeducedArgs → Prop
  le : DeducedArgs → DeducedArgs → Prop
  refl : ∀ args, le args args
  trans : ∀ args1 args2 args3, le args1 args2 → le args2 args3 → le args1 args3

def Deduction.Sound (D : Deduction) (f : DeducedArgs → Option DeducedArgs)
    (P : DeducedArgs → Prop) : Prop :=
  ∀ args args', D.good args → f args = some args' →
    D.good args' ∧ D.le args args' ∧ ∀ final, D.le args' final → P final

namespace Deduction

variable {D : Deduction} {f : DeducedArgs → Option DeducedArgs} {P Q : DeducedArgs → Prop}

theorem sound_none : D.Sound (fun _ => none) P := fun _ _ _ h => (nomatch h)

theorem sound_some (h : ∀ args, P args) : D.Sound some P := by
  intro args args' hgood heq
  rw [← some.inj heq]
  exact ⟨hgood, D.refl args, fun final _ => h final⟩

theorem Sound.mono (h : D.Sound f P) (himp : ∀ args, P args → Q args) : D.Sound f Q := by
  intro args as' hgood heq
  obtain ⟨hgood', hle, hfin⟩ := h args as' hgood heq
  exact ⟨hgood', hle, fun final hle => himp final (hfin final hle)⟩

theorem Sound.bind {g : DeducedArgs → Option DeducedArgs} (hf : D.Sound f P) (hg : D.Sound g Q) :
    D.Sound (fun args => (f args).bind g) fun args => P args ∧ Q args := by
  intro args as' hgood heq
  obtain ⟨as1, hfst, hsnd⟩ := bind_eq_some_iff.1 heq
  obtain ⟨hgood1, hle1, hfin1⟩ := hf args as1 hgood hfst
  obtain ⟨hgood2, hle2, hfin2⟩ := hg as1 as' hgood1 hsnd
  refine ⟨hgood2, D.trans _ _ _ hle1 hle2, fun final hle => ⟨?_, hfin2 final hle⟩⟩
  exact hfin1 final (D.trans _ _ _ hle2 hle)

theorem Sound.ite {c : Prop} [Decidable c] (h : c → D.Sound f P) :
    D.Sound (fun args => if c then f args else none) fun args => c ∧ P args := by
  by_cases hc : c
  · simp only [if_pos hc]
    exact (h hc).mono fun args hP => ⟨hc, hP⟩
  · simp only [if_neg hc]
    exact sound_none

end Deduction

section Sound

variable {ctx} {templateParams : List TemplateParamKind}
  {matchType : SignatureParam → LangType → DeducedArgs → Option DeducedArgs} {D : Deduction}
  {holds : DeducedArgs → Nat → TemplateArg → Prop}
  (hparam : ∀ index templateArg, D.Sound
    (matchTemplateParam templateParams matchType index templateArg)
    fun args => holds args index templateArg)

include hparam

set_option linter.unusedSectionVars false

mutual

theorem matchArg_sound : ∀ param templateArg,
    D.Sound (matchArg ctx templateParams matchType param templateArg)
      fun args => Describes ctx (holds args) param templateArg
  | .type type, templateArg | .variable_ type constexprValue, templateArg
  | .typeTemplate typeTemplate, templateArg =>
    (Deduction.Sound.ite fun _ => Deduction.sound_some fun _ => trivial).mono fun _ h => h.1
  | .templateParam index _, templateArg => hparam index templateArg
  | .array elementCount elementType, templateArg => by
    rcases templateArg with type | _ | _
    on_goal 1 => cases type
    case array =>
      exact (matchArg_sound elementType _).bind (matchArg_sound elementCount _)
    all_goals exact Deduction.sound_none
  | .tuple elementTypes, templateArg => by
    rcases templateArg with type | _ | _
    on_goal 1 => cases type
    case tuple => exact Deduction.Sound.ite fun _ => matchArgs_sound elementTypes _
    all_goals exact Deduction.sound_none
  | .rawPointer elementType, templateArg => by
    rcases templateArg with type | _ | _
    on_goal 1 => cases type
    case rawPointer => exact matchArg_sound elementType _
    all_goals exact Deduction.sound_none
  | .function returnType returnValueType isUnsafe callingConvention params, templateArg => by
    rcases templateArg with type | _ | _
    on_goal 1 => cases type
    case functionPointer given =>
      have hps : D.Sound (fun args => if given.params.length = params.length then
          matchFunctionParams ctx templateParams matchType params given.params args else none)
          fun args => given.params.length = params.length ∧
            DescribesFunctionParams ctx (holds args) params given.params :=
        Deduction.Sound.ite fun _ => matchFunctionParams_sound params given.params
      exact Deduction.Sound.ite fun _ => (matchArg_sound returnType _).bind hps
    all_goals exact Deduction.sound_none
  | .coroutine kind returnType returnValueType returnReferences returnInnerReferences
      innerReferences nonSync, templateArg => by
    rcases templateArg with type | _ | _
    on_goal 1 => cases type
    case classType class_ =>
      rcases class_ with _ | _ | description
      · exact Deduction.sound_none
      · exact Deduction.sound_none
      · cases description
        exact Deduction.Sound.ite fun _ => matchArg_sound returnType _
    all_goals exact Deduction.sound_none
  | .specializedTemplate typeTemplates params, templateArg => by
    rcases templateArg with type | _ | _
    on_goal 1 => cases type
    case classType class_ =>
      rcases class_ with _ | ⟨template, signatureAs⟩ | _
      · exact Deduction.sound_none
      · intro args as' hgood heq
        rw [matchArg] at heq
        by_cases hlen : signatureAs.length < params.length
        · rw [if_pos hlen] at heq
          exact (nomatch heq)
        · rw [if_neg hlen] at heq
          have hrs : D.Sound (fun args =>
              if ctx.restIsDefault template signatureAs params.length then some args
              else none) fun _ =>
                ctx.restIsDefault template signatureAs params.length = true ∧ True :=
            Deduction.Sound.ite fun _ => Deduction.sound_some fun _ => trivial
          have hall := (matchTypeTemplates_sound typeTemplates template).bind
            ((matchArgs_sound params signatureAs).bind hrs)
          exact (hall.mono fun final h =>
            ⟨Nat.not_lt.1 hlen, h.1, h.2.1, h.2.2.1⟩) args as' hgood heq
      · exact Deduction.sound_none
    all_goals exact Deduction.sound_none

theorem matchTypeTemplates_sound : ∀ tyTemplates template,
    D.Sound (matchTypeTemplates ctx templateParams matchType tyTemplates template)
      fun args => DescribesTemplate ctx (holds args) tyTemplates template
  | [], _ => Deduction.sound_none
  | typeTemplate :: tyTemplates, template => by
    intro args as' hgood heq
    rw [matchTypeTemplates] at heq
    cases hfst : matchArg ctx templateParams matchType typeTemplate (.typeTemplate template) args with
    | some args1 =>
      rw [hfst, some.injEq] at heq
      rw [heq] at hfst
      exact ((matchArg_sound typeTemplate _).mono fun _ h => Or.inl h) args as' hgood hfst
    | none =>
      rw [hfst] at heq
      exact ((matchTypeTemplates_sound tyTemplates template).mono
        fun _ h => Or.inr h) args as' hgood heq

theorem matchArgs_sound : ∀ params arguments, D.Sound (matchArgs ctx templateParams matchType params arguments)
    fun args => DescribesAll ctx (holds args) params arguments
  | [], _ => Deduction.sound_some fun _ => trivial
  | _ :: _, [] => Deduction.sound_none
  | param :: params, templateArg :: arguments =>
    (matchArg_sound param templateArg).bind (matchArgs_sound params arguments)

theorem matchFunctionParams_sound : ∀ params givens,
    D.Sound (matchFunctionParams ctx templateParams matchType params givens)
      fun args => DescribesFunctionParams ctx (holds args) params givens
  | [], _ => Deduction.sound_some fun _ => trivial
  | .mk _ _ :: _, [] => Deduction.sound_none
  | .mk type _ :: params, _ :: givens =>
    Deduction.Sound.ite fun _ => (matchArg_sound type _).bind
      (matchFunctionParams_sound params givens)

end

end Sound

def SignatureParam.isTypeTemplate : SignatureParam → Bool
  | .typeTemplate _ => true
  | _ => false

variable (templateParams : List TemplateParamKind)

def Accepts (index : Nat) (templateArg : TemplateArg) :
    Prop :=
  match templateParams[index]?, templateArg with
  | some .type, .type _ => True
  | some .typeTemplate, .typeTemplate _ => True
  | some (.variable_ paramType), .variable_ type _ =>
    isValidForTemplateVariableArgument type = true ∧ ∀ known, paramType = .type known → type = known
  | _, _ => False

abbrev DeducedFor (args : DeducedArgs) (templateParams : List TemplateParamKind) (index : Nat)
    (templateArg : TemplateArg) : Prop :=
  args index = some templateArg ∧ Accepts templateParams index templateArg

def AllAccepted (args : DeducedArgs) : Prop :=
  ∀ index templateArg, args index = some templateArg → Accepts templateParams index templateArg

theorem AllAccepted.deduce {templateParams : List TemplateParamKind} {args : DeducedArgs}
    {templateArg : TemplateArg} (h : AllAccepted templateParams args)
    (hacs : Accepts templateParams index templateArg) :
    AllAccepted templateParams (args.deduce index templateArg) := by
  intro i other ho
  by_cases hi : i = index
  · rw [hi, deduce_self, some.injEq] at ho
    rw [hi, ← ho]
    exact hacs
  · rw [deduce_of_ne hi] at ho
    exact h i other ho

def KnownValueTypes : Prop :=
  ∀ (index : Nat) (paramType : SignatureParam),
    templateParams[index]? = some (.variable_ paramType) → ∃ type, paramType = .type type

section Params

variable {ctx} {templateParams}

variable {templateArg : TemplateArg} {args : DeducedArgs}

theorem matchTemplateArg_type {dep : Nat} {t : LangType} {as' : DeducedArgs}
    (h : matchTemplateArg ctx templateParams dep (.type t) templateArg args = some as') :
    templateArg = .type t ∧ as' = args := by
  cases dep with
  | zero => exact (nomatch h)
  | succ dep =>
    have hif : (if templateArg = .type t then some args else none) = some as' := h
    by_cases heq : templateArg = .type t
    · rw [if_pos heq, some.injEq] at hif
      exact ⟨heq, hif.symm⟩
    · rw [if_neg heq] at hif
      exact (nomatch hif)

/-- A parameter that is not deduced yet is deduced behind its type; another one is compared. -/
theorem matchTemplateParam_cases
    {matchType : SignatureParam → LangType → DeducedArgs → Option DeducedArgs} {args' : DeducedArgs}
    (h : matchTemplateParam templateParams matchType index templateArg args = some args') :
    (args index = some templateArg ∧ args' = args) ∨
    (args index = none ∧ Accepts templateParams index templateArg ∧
      args' = args.deduce index templateArg) ∨
    (args index = none ∧ ∃ paramType type value args1,
      templateParams[index]? = some (.variable_ paramType) ∧
        templateArg = .variable_ type value ∧ isValidForTemplateVariableArgument type = true ∧
        matchType paramType type args = some args1 ∧ args' = args1.deduce index templateArg) := by
  unfold matchTemplateParam at h
  cases hkn : args index with
  | some prevArg =>
    rw [hkn] at h
    dsimp only at h
    by_cases heq : prevArg = templateArg
    · rw [if_pos heq, some.injEq] at h
      exact .inl ⟨congrArg some heq, h.symm⟩
    · rw [if_neg heq] at h
      exact (nomatch h)
  | none =>
    rw [hkn] at h
    refine .inr ?_
    cases templateArg with
    | type type | typeTemplate typeTemplate =>
      cases hk : templateParams[index]? with
      | none => simp [hk] at h
      | some kind =>
        cases kind <;> simp [hk] at h
        exact .inl ⟨rfl, by simp [Accepts, hk], h.symm⟩
    | variable_ type value =>
      cases hk : templateParams[index]? with
      | none => simp [hk] at h
      | some kind =>
        cases kind with
        | type | typeTemplate => simp [hk] at h
        | variable_ paramType =>
          simp only [hk] at h
          by_cases hok : isValidForTemplateVariableArgument type = true
          · rw [if_pos hok] at h
            obtain ⟨args1, hma, heq⟩ := map_eq_some_iff.1 h
            exact .inr ⟨rfl, paramType, type, value, args1, rfl, rfl, hok, hma, heq.symm⟩
          · rw [if_neg hok] at h
            exact (nomatch h)

/-- Nothing is remembered of what was deduced but that it was accepted. -/
def acceptedDeduction (templateParams : List TemplateParamKind) : Deduction where
  good := AllAccepted templateParams
  le _ _ := True
  refl _ := trivial
  trans _ _ _ _ _ := trivial

theorem matchTemplateArg_accepted (dep : Nat) :
    ∀ param templateArg, (acceptedDeduction templateParams).Sound
        (matchTemplateArg ctx templateParams dep param templateArg)
        fun _ => Describes ctx (Accepts templateParams) param templateArg := by
  induction dep with
  | zero => exact fun _ _ => Deduction.sound_none
  | succ dep ih =>
    refine matchArg_sound ?_
    intro index templateArg args args' hgood h
    rcases matchTemplateParam_cases h with ⟨hkn, heq⟩ | ⟨-, hacs, heq⟩ |
      ⟨-, paramType, type, value, args1, hk, harg, hok, hma, heq⟩
    · rw [heq]
      exact ⟨hgood, trivial, fun _ _ => hgood index templateArg hkn⟩
    · rw [heq]
      exact ⟨hgood.deduce hacs, trivial, fun _ _ => hacs⟩
    · obtain ⟨hgood1, -, -⟩ := ih paramType (.type type) args args1 hgood hma
      have hacs : Accepts templateParams index templateArg := by
        rw [harg]
        simp only [Accepts, hk]
        refine ⟨hok, fun known hkn => ?_⟩
        rw [hkn] at hma
        exact TemplateArg.type.inj (matchTemplateArg_type hma).1
      rw [heq]
      exact ⟨hgood1.deduce hacs, trivial, fun _ _ => hacs⟩

def keptDeduction (templateParams : List TemplateParamKind) : Deduction where
  good := AllAccepted templateParams
  le args args' := ∀ index templateArg, args index = some templateArg →
    args' index = some templateArg
  refl _ _ _ h := h
  trans _ _ _ h1 h2 index templateArg h := h2 index templateArg (h1 index templateArg h)

theorem matchTemplateArg_kept (hvs : KnownValueTypes templateParams) (dep : Nat) :
    ∀ param templateArg, (keptDeduction templateParams).Sound
        (matchTemplateArg ctx templateParams dep param templateArg)
        fun args => Describes ctx (DeducedFor args templateParams) param templateArg := by
  cases dep with
  | zero => exact fun _ _ => Deduction.sound_none
  | succ dep =>
    refine matchArg_sound ?_
    intro index templateArg args as' hgood h
    have hded : args index = none → Accepts templateParams index templateArg →
        as' = args.deduce index templateArg → AllAccepted templateParams as' ∧
          (keptDeduction templateParams).le args as' ∧
          ∀ final, (keptDeduction templateParams).le as' final →
            DeducedFor final templateParams index templateArg := by
      intro hno hacs heq
      rw [heq]
      refine ⟨hgood.deduce hacs, fun i other ho => ?_, fun final hfin => ?_⟩
      · have hne : i ≠ index := fun hi => by
          rw [hi, hno] at ho
          exact (nomatch ho)
        rw [deduce_of_ne hne]
        exact ho
      · exact ⟨hfin index templateArg (deduce_self args index templateArg), hacs⟩
    rcases matchTemplateParam_cases h with ⟨hkn, heq⟩ | ⟨hno, hacs, heq⟩ |
      ⟨hno, paramType, type, value, args1, hk, harg, hok, hma, heq⟩
    · rw [heq]
      exact ⟨hgood, fun _ _ h => h, fun final hfin =>
        ⟨hfin index templateArg hkn, hgood index templateArg hkn⟩⟩
    · exact hded hno hacs heq
    · obtain ⟨known, hkn⟩ := hvs index paramType hk
      rw [hkn] at hma
      obtain ⟨hty, hargs⟩ := matchTemplateArg_type hma
      have hacs : Accepts templateParams index templateArg := by
        rw [harg]
        simp only [Accepts, hk]
        refine ⟨hok, fun other ho => ?_⟩
        rw [hkn, SignatureParam.type.injEq] at ho
        rw [← ho]
        exact TemplateArg.type.inj hty
      rw [hargs] at heq
      exact hded hno hacs heq

theorem matchTemplateParam_accepted (hvs : KnownValueTypes templateParams)
    (hno : args index = none)
    (hacs : Accepts templateParams index templateArg) :
    matchTemplateParam templateParams
      (fun paramType type args => matchTemplateArg ctx templateParams 1 paramType (.type type) args)
      index templateArg args = some (args.deduce index templateArg) := by
  unfold matchTemplateParam
  rw [hno]
  cases hk : templateParams[index]? with
  | none => simp [Accepts, hk] at hacs
  | some kind =>
    cases kind with
    | type | typeTemplate => cases templateArg <;> simp_all [Accepts]
    | variable_ paramType =>
      cases templateArg with
      | type type | typeTemplate typeTemplate => simp [Accepts, hk] at hacs
      | variable_ type value =>
        obtain ⟨known, hkn⟩ := hvs index paramType hk
        simp only [Accepts, hk] at hacs
        have hty : type = known := hacs.2 known hkn
        have hma : matchTemplateArg ctx templateParams 1 paramType (.type type) args =
            some args := by
          rw [hkn, hty]
          exact if_pos rfl
        simp only [if_pos hacs.1, hma, map_some]

end Params

mutual

/-- Several type templates in one parameter are those of a set of one name. -/
def SignatureParam.setsKnown : SignatureParam → Bool
  | .array elementCount elementType => elementCount.setsKnown && elementType.setsKnown
  | .tuple elementTypes => allSetsKnown elementTypes
  | .rawPointer elementType => elementType.setsKnown
  | .function returnType _ _ _ params => returnType.setsKnown && functionSetsKnown params
  | .coroutine _ returnType _ _ _ _ _ => returnType.setsKnown
  | .specializedTemplate typeTemplates params =>
    (decide (typeTemplates.length = 1) || typeTemplates.all SignatureParam.isTypeTemplate) &&
      allSetsKnown typeTemplates && allSetsKnown params
  | _ => true
termination_by structural param => param

def allSetsKnown : List SignatureParam → Bool
  | [] => true
  | param :: params => param.setsKnown && allSetsKnown params
termination_by structural params => params

def functionSetsKnown : List FunctionSignatureParam → Bool
  | [] => true
  | .mk type _ :: params => type.setsKnown && functionSetsKnown params
termination_by structural params => params

end

structure TemplateSignature where
  templateParams : List TemplateParamKind
  param : SignatureParam
  setsKnown : param.setsKnown = true

/-- `MatchTemplateArg` succeeds, with nothing deduced before. -/
def TemplateSignature.Matches (signature : TemplateSignature)
    (templateArg : TemplateArg) : Prop :=
  ∃ depth, (matchTemplateArg ctx signature.templateParams depth signature.param templateArg
    fun _ => none).isSome = true

theorem allAccepted_none :
    AllAccepted templateParams fun _ => none := fun _ _ h => (nomatch h)

theorem TemplateSignature.Matches.describes {ctx : MatchingContext} {signature : TemplateSignature}
    {templateArg : TemplateArg} (h : signature.Matches ctx templateArg) :
    Describes ctx (Accepts signature.templateParams) signature.param templateArg := by
  obtain ⟨dep, hsm⟩ := h
  obtain ⟨args, hargs⟩ := isSome_iff_exists.1 hsm
  exact (matchTemplateArg_accepted dep _ _ _ args (allAccepted_none _) hargs).2.2 args trivial

theorem TemplateSignature.Matches.deduced {ctx : MatchingContext} {signature : TemplateSignature}
    (hvs : KnownValueTypes signature.templateParams) {templateArg : TemplateArg}
    (h : signature.Matches ctx templateArg) :
    ∃ args, Describes ctx (DeducedFor args signature.templateParams)
      signature.param templateArg := by
  obtain ⟨dep, hsm⟩ := h
  obtain ⟨args, hargs⟩ := isSome_iff_exists.1 hsm
  exact ⟨args, (matchTemplateArg_kept hvs dep _ _ _ args (allAccepted_none _) hargs).2.2 args
    fun _ _ h => h⟩

end USprache.CodeBuilder.WithArgs
