import USprache.CodeBuilder.SpecializationPairs

/-!
# Matching of specialised templates

What a more special parameter matches, a less special one matches too, if the parameters that
the latter repeats stand for one thing.
-/

namespace USprache.CodeBuilder.WithArgs

open List Option Bool

/-! ## Parameters that stand for something -/

mutual

def SignatureParam.paramsOf : SignatureParam → List Nat
  | .templateParam index _ => [index]
  | .array elementCount elementType => elementType.paramsOf ++ elementCount.paramsOf
  | .tuple elementTypes => allParamsOf elementTypes
  | .rawPointer elementType => elementType.paramsOf
  | .function returnType _ _ _ params => returnType.paramsOf ++ functionParamsOf params
  | .coroutine _ returnType _ _ _ _ _ => returnType.paramsOf
  | .specializedTemplate typeTemplates params => allParamsOf typeTemplates ++ allParamsOf params
  | _ => []
termination_by structural param => param

def allParamsOf : List SignatureParam → List Nat
  | [] => []
  | param :: params => param.paramsOf ++ allParamsOf params
termination_by structural params => params

def functionParamsOf : List FunctionSignatureParam → List Nat
  | [] => []
  | .mk type _ :: params => type.paramsOf ++ functionParamsOf params
termination_by structural params => params

end

mutual

/-- What of `left` each use of a template parameter in `right` stands against. -/
def standsAgainst : SignatureParam → SignatureParam → List (SignatureParam × Nat)
  | .templateParam index _, left => [(left, index)]
  | .array rightCount rightType, left =>
    match left with
    | .array leftCount leftType =>
      standsAgainst rightType leftType ++ standsAgainst rightCount leftCount
    | _ => (rightType.paramsOf ++ rightCount.paramsOf).map fun index => (left, index)
  | .tuple rightTypes, left =>
    match left with
    | .tuple leftTypes => standAgainst rightTypes leftTypes
    | _ => (allParamsOf rightTypes).map fun index => (left, index)
  | .rawPointer rightType, left =>
    match left with
    | .rawPointer leftType => standsAgainst rightType leftType
    | _ => rightType.paramsOf.map fun index => (left, index)
  | .function rightReturnType _ _ _ rightParams, left =>
    match left with
    | .function leftReturnType _ _ _ leftParams =>
      standsAgainst rightReturnType leftReturnType ++ functionParamsStandAgainst rightParams leftParams
    | _ => (rightReturnType.paramsOf ++ functionParamsOf rightParams).map fun index => (left, index)
  | .coroutine _ rightReturnType _ _ _ _ _, left =>
    match left with
    | .coroutine _ leftReturnType _ _ _ _ _ => standsAgainst rightReturnType leftReturnType
    | _ => rightReturnType.paramsOf.map fun index => (left, index)
  | .specializedTemplate rightTemplates rightParams, left =>
    match left with
    | .specializedTemplate leftTemplates leftParams =>
      standAgainst rightTemplates leftTemplates ++ standAgainst rightParams leftParams
    | _ => (allParamsOf rightTemplates ++ allParamsOf rightParams).map fun index => (left, index)
  | _, _ => []
termination_by structural right => right

def standAgainst : List SignatureParam → List SignatureParam → List (SignatureParam × Nat)
  | right :: rights, left :: lefts => standsAgainst right left ++ standAgainst rights lefts
  | _, _ => []
termination_by structural rights => rights

def functionParamsStandAgainst :
    List FunctionSignatureParam → List FunctionSignatureParam → List (SignatureParam × Nat)
  | .mk right _ :: rights, .mk left _ :: lefts =>
    standsAgainst right left ++ functionParamsStandAgainst rights lefts
  | _, _ => []
termination_by structural rights => rights

end

/-- A parameter that is used twice stands for known things, or for one parameter. -/
def RepeatedAlike (place other : SignatureParam × Nat) : Prop :=
  place.2 = other.2 → (place.1.isKnown = true ∧ other.1.isKnown = true) ∨
    (place.1 = other.1 ∧ ∃ index kindIndex, place.1 = .templateParam index kindIndex)

/-! ## Following the match on the left -/

section Following

variable (known leftArgs : DeducedArgs)

/-- Every deduced argument comes from a place: it is the known one there, or what the parameter
on the left stands for. -/
def TracksMatches (places : List (SignatureParam × Nat)) (args : DeducedArgs) : Prop :=
  ∀ index templateArg, args index = some templateArg → ∃ left, (left, index) ∈ places ∧
    (left.isKnown = true → known index = some templateArg) ∧
      ∀ leftIndex kindIndex, left = .templateParam leftIndex kindIndex →
        leftArgs leftIndex = some templateArg

def Succeeds (f : DeducedArgs → Option DeducedArgs) (places : List (SignatureParam × Nat)) : Prop :=
  ∀ before args, TracksMatches known leftArgs before args → (before ++ places).Pairwise RepeatedAlike →
    ∃ args', f args = some args' ∧ TracksMatches known leftArgs (before ++ places) args'

variable {known leftArgs} {f g : DeducedArgs → Option DeducedArgs}
  {places others : List (SignatureParam × Nat)}

theorem succeeds_some : Succeeds known leftArgs some [] := by
  intro before as htrk _
  rw [append_nil]
  exact ⟨as, rfl, htrk⟩

theorem Succeeds.bind (hf : Succeeds known leftArgs f places)
    (hg : Succeeds known leftArgs g others) :
    Succeeds known leftArgs (fun as => (f as).bind g) (places ++ others) := by
  intro pre as htrk hpw
  rw [← append_assoc] at hpw ⊢
  have hfst := hpw.sublist (sublist_append_left _ _)
  obtain ⟨as1, hargs1, htrk1⟩ := hf pre as htrk hfst
  obtain ⟨as2, hargs2, htrk2⟩ := hg (pre ++ places) as1 htrk1 hpw
  refine ⟨as2, ?_, htrk2⟩
  show (f as).bind g = some as2
  rw [hargs1]
  exact hargs2

theorem Succeeds.ite {c : Prop} [Decidable c] (hc : c) (h : Succeeds known leftArgs f places) :
    Succeeds known leftArgs (fun as => if c then f as else none) places := by
  simp only [if_pos hc]
  exact h

variable {ctx : MatchingContext} {leftParams templateParams : List TemplateParamKind}

def matchKnownTypes (ctx : MatchingContext) (templateParams : List TemplateParamKind)
    (paramType : SignatureParam) (type : LangType) (args : DeducedArgs) : Option DeducedArgs :=
  matchTemplateArg ctx templateParams 1 paramType (.type type) args

theorem succeeds_templateParam (hvalues : KnownValueTypes templateParams) {left : SignatureParam}
    {index : Nat} {templateArg : TemplateArg} (hacs : Accepts templateParams index templateArg)
    (hkn : left.isKnown = true → known index = some templateArg)
    (hleft : ∀ lI kI, left = .templateParam lI kI → leftArgs lI = some templateArg) :
    Succeeds known leftArgs (matchTemplateParam templateParams (matchKnownTypes ctx templateParams)
      index templateArg) [(left, index)] := by
  intro before as htrk hpw
  cases hargs : as index with
  | none =>
    refine ⟨_, matchTemplateParam_accepted hvalues hargs hacs, fun i other ho => ?_⟩
    by_cases hi : i = index
    · rw [hi, deduce_self] at ho
      rw [hi, ← ho]
      exact ⟨left, mem_append_right _ (mem_singleton_self _), hkn, hleft⟩
    · rw [deduce_of_ne hi] at ho
      obtain ⟨place, hpl, hrs⟩ := htrk i other ho
      exact ⟨place, mem_append_left _ hpl, hrs⟩
  | some prevA =>
    obtain ⟨place, hpl, hplKn, hplL⟩ := htrk index prevA hargs
    have hali : RepeatedAlike (place, index) (left, index) :=
      (pairwise_append.1 hpw).2.2 _ hpl _ (mem_singleton_self _)
    have heq : prevA = templateArg := by
      rcases hali rfl with ⟨hboth, hboth'⟩ | ⟨hsame, lI, kI, hp⟩
      · exact some.inj ((hplKn hboth).symm.trans (hkn hboth'))
      · have hprev := hplL lI kI hp
        rw [hsame] at hp
        exact some.inj (hprev.symm.trans (hleft lI kI hp))
    refine ⟨as, ?_, fun i other ho => ?_⟩
    · simp only [matchTemplateParam, hargs, if_pos heq]
    · obtain ⟨place, hpl, hrs⟩ := htrk i other ho
      exact ⟨place, mem_append_left _ hpl, hrs⟩

variable {typeTemplates : List SignatureParam} {template : TypeTemplate}

theorem matchTypeTemplates_of_known {holds : Nat → TemplateArg → Prop}
    {matchType : SignatureParam → LangType → DeducedArgs → Option DeducedArgs}
    (hall : typeTemplates.all SignatureParam.isTypeTemplate = true)
    (h : DescribesTemplate ctx holds typeTemplates template) (args : DeducedArgs) :
    matchTypeTemplates ctx templateParams matchType typeTemplates template args = some args := by
  induction typeTemplates with
  | nil => exact h.elim
  | cons typeTemplate typeTemplates ih =>
    rw [all_cons, and_eq_true] at hall
    cases typeTemplate with
    | typeTemplate given =>
      rw [matchTypeTemplates, matchArg]
      by_cases heq : TemplateArg.typeTemplate template = .typeTemplate given
      · rw [if_pos heq]
      · rw [if_neg heq]
        exact ih hall.2 (h.resolve_left heq)
    | _ => exact absurd hall.1 false_ne_true

theorem allParamsOf_of_known (hall : typeTemplates.all SignatureParam.isTypeTemplate = true) :
    allParamsOf typeTemplates = [] := by
  induction typeTemplates with
  | nil => rfl
  | cons typeTemplate typeTemplates ih =>
    rw [all_cons, and_eq_true] at hall
    cases typeTemplate with
    | typeTemplate given => exact ih hall.2
    | _ => exact absurd hall.1 false_ne_true

theorem standAgainst_of_known {rs ls : List SignatureParam}
    (hall : rs.all SignatureParam.isTypeTemplate = true) : standAgainst rs ls = [] := by
  induction rs generalizing ls with
  | nil => rfl
  | cons r rs ih =>
    rw [all_cons, and_eq_true] at hall
    cases r with
    | typeTemplate given =>
      cases ls with
      | nil => rfl
      | cons left ls => exact ih hall.2
    | _ => exact absurd hall.1 false_ne_true

/-! ### Known types -/

theorem succeeds_first {tyTm : SignatureParam}
    (h : Succeeds known leftArgs (matchArg ctx templateParams (matchKnownTypes ctx templateParams)
      tyTm (.typeTemplate template)) places) :
    Succeeds known leftArgs (matchTypeTemplates ctx templateParams
      (matchKnownTypes ctx templateParams) [tyTm] template) places := by
  intro pre as htrk hpw
  obtain ⟨as', hargs', htrk'⟩ := h pre as htrk hpw
  refine ⟨as', ?_, htrk'⟩
  rw [matchTypeTemplates, hargs']

theorem succeeds_specializedTemplate {params : List SignatureParam} {signatureAs : List TemplateArg}
    (hlen : params.length ≤ signatureAs.length)
    (htem : Succeeds known leftArgs (matchTypeTemplates ctx templateParams
      (matchKnownTypes ctx templateParams) typeTemplates template) places)
    (hps : Succeeds known leftArgs (matchArgs ctx templateParams
      (matchKnownTypes ctx templateParams) params signatureAs) others)
    (hrs : ctx.restIsDefault template signatureAs params.length = true) :
    Succeeds known leftArgs (matchArg ctx templateParams (matchKnownTypes ctx templateParams)
      (.specializedTemplate typeTemplates params)
      (.type (.classType (.ofTemplate template signatureAs)))) (places ++ others) := by
  have hall := htem.bind (hps.bind (succeeds_some.ite hrs))
  rw [append_nil] at hall
  intro pre as htrk hpw
  rw [matchArg, if_neg (Nat.not_lt.2 hlen)]
  exact hall pre as htrk hpw

section Known

variable (hvalues : KnownValueTypes templateParams) {left : SignatureParam}
  (hleft : left.isKnown = true)

include hvalues hleft

set_option linter.unusedSectionVars false

mutual

theorem succeeds_known : ∀ r templateArg,
    r.setsKnown = true → Describes ctx (DeducedFor known templateParams) r templateArg →
      Succeeds known leftArgs
        (matchArg ctx templateParams (matchKnownTypes ctx templateParams) r templateArg)
        (r.paramsOf.map fun index => (left, index))
  | .type _, _, _, h | .variable_ .., _, _, h | .typeTemplate _, _, _, h => succeeds_some.ite h
  | .templateParam index _, templateArg, _, h => by
    refine succeeds_templateParam hvalues h.2 (fun _ => h.1) fun leftIndex kindIndex heq => ?_
    rw [heq] at hleft
    cases hleft
  | .array elementCount elementType, templateArg, hst, h => by
    obtain ⟨_, _, rfl, hty, hc⟩ := describes_array h
    rw [SignatureParam.setsKnown, and_eq_true] at hst
    rw [SignatureParam.paramsOf, map_append]
    exact (succeeds_known elementType _ hst.2 hty).bind (succeeds_known elementCount _ hst.1 hc)
  | .tuple elementTypes, templateArg, hst, h => by
    obtain ⟨_, rfl, hlen, hels⟩ := describes_tuple h
    exact (allSucceed_known elementTypes _ hst hels).ite hlen
  | .rawPointer elementType, templateArg, hst, h => by
    obtain ⟨_, rfl, hty⟩ := describes_rawPointer h
    exact succeeds_known elementType _ hst hty
  | .function returnType _ _ _ params, templateArg, hst, h => by
    obtain ⟨given, rfl, hsame, hret, hlen, hps⟩ := describes_function h
    rw [SignatureParam.setsKnown, and_eq_true] at hst
    rw [SignatureParam.paramsOf, map_append]
    have hall := functionParamsSucceed_known params given.params hst.2 hps
    exact ((succeeds_known returnType _ hst.1 hret).bind (hall.ite hlen)).ite hsame
  | .coroutine _ returnType _ _ _ _ _, templateArg, hst, h => by
    obtain ⟨_, hvTy, rfl, hty⟩ := describes_coroutine h
    exact (succeeds_known returnType _ hst hty).ite ⟨rfl, hvTy, rfl, rfl, rfl, rfl⟩
  | .specializedTemplate typeTemplates params, templateArg, hst, h => by
    obtain ⟨template, signatureAs, rfl, hlen, htem, hps, hrs⟩ := describes_specializedTemplate h
    rw [SignatureParam.setsKnown, and_eq_true, and_eq_true] at hst
    rw [SignatureParam.paramsOf, map_append]
    exact succeeds_specializedTemplate hlen
      (templateSucceeds_known typeTemplates template hst.1.1 hst.1.2 htem)
      (allSucceed_known params signatureAs hst.2 hps) hrs

theorem templateSucceeds_known : ∀ typeTemplates template,
    (decide (typeTemplates.length = 1) || typeTemplates.all SignatureParam.isTypeTemplate) = true →
      allSetsKnown typeTemplates = true →
        DescribesTemplate ctx (DeducedFor known templateParams) typeTemplates template →
        Succeeds known leftArgs
          (matchTypeTemplates ctx templateParams (matchKnownTypes ctx templateParams)
            typeTemplates template)
          ((allParamsOf typeTemplates).map fun index => (left, index))
  | [], _, _, _, h => h.elim
  | [typeTemplate], template, _, hst, h => by
    rw [allSetsKnown, and_eq_true] at hst
    rw [allParamsOf, allParamsOf, append_nil]
    exact succeeds_first (succeeds_known typeTemplate _ hst.1 (h.resolve_right id))
  | first :: second :: typeTemplates, template, hall, _, h => by
    have hall : (first :: second :: typeTemplates).all SignatureParam.isTypeTemplate = true := by
      simpa using hall
    rw [allParamsOf_of_known hall]
    intro pre as htrk hpw
    rw [matchTypeTemplates_of_known hall h as]
    exact succeeds_some pre as htrk hpw

theorem allSucceed_known : ∀ params args, allSetsKnown params = true →
    DescribesAll ctx (DeducedFor known templateParams) params args → Succeeds known leftArgs
        (matchArgs ctx templateParams (matchKnownTypes ctx templateParams) params args)
        ((allParamsOf params).map fun index => (left, index))
  | [], _, _, _ => succeeds_some
  | _ :: _, [], _, h => h.elim
  | param :: params, templateArg :: args, hst, h => by
    rw [allSetsKnown, and_eq_true] at hst
    rw [allParamsOf, map_append]
    exact (succeeds_known param _ hst.1 h.1).bind (allSucceed_known params args hst.2 h.2)

theorem functionParamsSucceed_known : ∀ params givens, functionSetsKnown params = true →
    DescribesFunctionParams ctx (DeducedFor known templateParams) params givens →
      Succeeds known leftArgs
        (matchFunctionParams ctx templateParams (matchKnownTypes ctx templateParams) params givens)
        ((functionParamsOf params).map fun index => (left, index))
  | [], _, _, _ => succeeds_some
  | .mk _ _ :: _, [], _, h => h.elim
  | .mk type _ :: params, given :: givens, hst, h => by
    rw [functionSetsKnown, and_eq_true] at hst
    rw [functionParamsOf, map_append]
    exact ((succeeds_known type _ hst.1 h.2.1).bind
      (functionParamsSucceed_known params givens hst.2 h.2.2)).ite h.1

end

end Known

/-! ### Special parameters -/

variable {index : Nat} {common templateArg : TemplateArg}

theorem accepts_other_type {type other : LangType} (h : Accepts templateParams index (.type type)) :
    Accepts templateParams index (.type other) := by
  unfold Accepts at h ⊢
  cases hk : templateParams[index]? with
  | none =>
    rw [hk] at h
    exact h.elim
  | some kind =>
    rw [hk] at h
    cases kind with
    | type => trivial
    | typeTemplate | variable_ => exact h.elim

/-- What one parameter of a known kind stands for, another one that stands for something in
common can stand for. -/
theorem accepts_of_param (hleftValues : KnownValueTypes leftParams) {leftIndex : Nat}
    (hcom : Accepts leftParams leftIndex common)
    (hleft : Accepts leftParams leftIndex templateArg)
    (hr : Accepts templateParams index common) : Accepts templateParams index templateArg := by
  unfold Accepts at hcom hleft
  cases hk : leftParams[leftIndex]? with
  | none =>
    rw [hk] at hleft
    exact hleft.elim
  | some kind =>
    rw [hk] at hcom hleft
    cases kind with
    | type =>
      cases common with
      | type type =>
        cases templateArg with
        | type other => exact accepts_other_type hr
        | _ => exact hleft.elim
      | _ => exact hcom.elim
    | typeTemplate =>
      cases common with
      | typeTemplate typeTemplate =>
        cases templateArg with
        | typeTemplate other =>
          unfold Accepts at hr ⊢
          cases ho : templateParams[index]? with
          | none =>
            rw [ho] at hr
            exact hr.elim
          | some kind =>
            rw [ho] at hr
            cases kind <;> exact hr
        | _ => exact hleft.elim
      | _ => exact hcom.elim
    | variable_ paramType =>
      obtain ⟨known, hkn⟩ := hleftValues leftIndex paramType hk
      cases common with
      | variable_ type value =>
        cases templateArg with
        | variable_ other otherValue =>
          have htys : type = other := (hcom.2 known hkn).trans (hleft.2 known hkn).symm
          rw [← htys]
          unfold Accepts at hr ⊢
          cases ho : templateParams[index]? with
          | none =>
            rw [ho] at hr
            exact hr.elim
          | some kind =>
            rw [ho] at hr
            cases kind <;> exact hr
        | _ => exact hleft.elim
      | _ => exact hcom.elim

/-- What describes the argument of a parameter describes others of the same kind only. -/
theorem accepts_of_describes (hleftValues : KnownValueTypes leftParams) {left : SignatureParam}
    (hcom : Describes ctx (Accepts leftParams) left common)
    (hleft : Describes ctx (DeducedFor leftArgs leftParams) left templateArg)
    (hr : Accepts templateParams index common) : Accepts templateParams index templateArg := by
  cases left with
  | type | variable_ | typeTemplate =>
    rw [hleft, ← hcom]
    exact hr
  | templateParam => exact accepts_of_param hleftValues hcom hleft.2 hr
  | array | tuple | rawPointer | function | coroutine | specializedTemplate =>
    rcases common with type | _ | _
    · rcases templateArg with other | _ | _
      · exact accepts_other_type hr
      · exact hleft.elim
      · exact hleft.elim
    · exact hcom.elim
    · exact hcom.elim

theorem succeeds_of_type (hvalues : KnownValueTypes templateParams) {t : LangType}
    {r : SignatureParam}
    (hcom : common = .type t) (hleft : templateArg = .type t)
    (hst : r.setsKnown = true)
    (hr : Describes ctx (DeducedFor known templateParams) r common) :
    Succeeds known leftArgs
      (matchArg ctx templateParams (matchKnownTypes ctx templateParams) r templateArg)
      (r.paramsOf.map fun index => (.type t, index)) := by
  rw [hleft, ← hcom]
  exact succeeds_known hvalues rfl r common hst hr

section Special

variable (hleftValues : KnownValueTypes leftParams) (hvalues : KnownValueTypes templateParams)

include hleftValues hvalues

set_option linter.unusedSectionVars false

mutual

theorem succeeds_of_specializes : ∀ r left common templateArg,
    specializes true left r = true → r.setsKnown = true →
      Describes ctx (Accepts leftParams) left common →
      Describes ctx (DeducedFor leftArgs leftParams) left templateArg →
      Describes ctx (DeducedFor known templateParams) r common → Succeeds known leftArgs
          (matchArg ctx templateParams (matchKnownTypes ctx templateParams) r templateArg)
          (standsAgainst r left)
  | .type _, left, common, templateArg, hsp, hst, hcom, hleft, hr => by
    cases left
    case type => exact succeeds_of_type hvalues hcom hleft hst hr
    all_goals cases hsp
  | .variable_ .., left, common, templateArg, hsp, hst, hcom, hleft, hr => by
    cases left
    case variable_ =>
      have hcom : common = _ := hcom
      have hleft : templateArg = _ := hleft
      exact succeeds_some.ite ((hleft.trans hcom.symm).trans hr)
    all_goals cases hsp
  | .typeTemplate _, left, common, templateArg, hsp, hst, hcom, hleft, hr => by
    cases left
    case typeTemplate =>
      have hcom : common = _ := hcom
      have hleft : templateArg = _ := hleft
      exact succeeds_some.ite ((hleft.trans hcom.symm).trans hr)
    all_goals cases hsp
  | .templateParam index _, left, common, templateArg, _, _, hcom, hleft, hr => by
    have hacs := accepts_of_describes hleftValues hcom hleft hr.2
    refine succeeds_templateParam hvalues hacs (fun hkn => ?_) fun leftIndex kindIndex heq => ?_
    · have hsame : templateArg = common := by
        cases left with
        | type | variable_ | typeTemplate => exact hleft.trans hcom.symm
        | _ => cases hkn
      rw [hsame]
      exact hr.1
    · rw [heq] at hleft
      exact hleft.1
  | .array rightCount rightType, left, common, templateArg, hsp, hst, hcom, hleft, hr => by
    cases left
    case type => exact succeeds_of_type hvalues hcom hleft hst hr
    case array leftCount leftType =>
      rw [specializes, and_eq_true] at hsp
      rw [SignatureParam.setsKnown, and_eq_true] at hst
      obtain ⟨_, _, rfl, hcom⟩ := describes_array hcom
      obtain ⟨_, _, rfl, hleft⟩ := describes_array hleft
      exact (succeeds_of_specializes rightType leftType _ _ hsp.2 hst.2 hcom.1 hleft.1
        hr.1).bind (succeeds_of_specializes rightCount leftCount _ _ hsp.1 hst.1 hcom.2
          hleft.2 hr.2)
    all_goals cases hsp
  | .tuple rightTypes, left, common, templateArg, hsp, hst, hcom, hleft, hr => by
    cases left
    case type => exact succeeds_of_type hvalues hcom hleft hst hr
    case tuple leftTypes =>
      obtain ⟨_, rfl, hcom⟩ := describes_tuple hcom
      obtain ⟨_, rfl, hleft⟩ := describes_tuple hleft
      have hlen := hleft.1.trans (specializesAll_length hsp)
      exact (allSucceed_of_specialize rightTypes leftTypes _ _ hsp hst hcom.2 hleft.2 hr.2).ite hlen
    all_goals cases hsp
  | .rawPointer rightType, left, common, templateArg, hsp, hst, hcom, hleft, hr => by
    cases left
    case type => exact succeeds_of_type hvalues hcom hleft hst hr
    case rawPointer leftType =>
      obtain ⟨_, rfl, hcom⟩ := describes_rawPointer hcom
      obtain ⟨_, rfl, hleft⟩ := describes_rawPointer hleft
      exact succeeds_of_specializes rightType leftType _ _ hsp hst hcom hleft hr
    all_goals cases hsp
  | .function rightReturnType _ _ _ rightParams, left, common, templateArg, hsp, hst, hcom,
      hleft, hr => by
    cases left
    case type => exact succeeds_of_type hvalues hcom hleft hst hr
    case function leftReturnType _ _ _ leftParams =>
      rw [specializes, and_eq_true] at hsp
      rw [SignatureParam.setsKnown, and_eq_true] at hst
      obtain ⟨_, rfl, hcom⟩ := describes_function hcom
      obtain ⟨_, rfl, hleft⟩ := describes_function hleft
      have hret := succeeds_of_specializes rightReturnType leftReturnType _ _ hsp.1 hst.1
        hcom.2.1 hleft.2.1 hr.2.1
      have hps := functionParamsSucceed_of_specialize rightParams leftParams _ _ hsp.2 hst.2
        hcom.2.2.2 hleft.2.2.2 hr.2.2.2
      have hlen := hleft.2.2.1.trans (specializesFunctionParams_length hsp.2)
      refine (hret.bind (hps.ite hlen)).ite ⟨?_, ?_, ?_⟩
      · exact (hleft.1.1.trans hcom.1.1.symm).trans hr.1.1
      · exact (hleft.1.2.1.trans hcom.1.2.1.symm).trans hr.1.2.1
      · exact (hleft.1.2.2.trans hcom.1.2.2.symm).trans hr.1.2.2
    all_goals cases hsp
  | .coroutine _ rightReturnType _ _ _ _ _, left, common, templateArg, hsp, hst, hcom, hleft,
      hr => by
    cases left
    case type => exact succeeds_of_type hvalues hcom hleft hst hr
    case coroutine _ leftReturnType _ _ _ _ _ =>
      rw [specializes, and_eq_true] at hsp
      obtain ⟨_, hvTy, rfl, hcom'⟩ := describes_coroutine hcom
      obtain ⟨_, hvTy', rfl, hl'⟩ := describes_coroutine hleft
      have hret := succeeds_of_specializes rightReturnType leftReturnType _ _ hsp.2 hst
        hcom' hl' hr.2
      obtain ⟨hk, hv, hrs⟩ := hr.1
      exact hret.ite ⟨hk, (hvTy'.trans hvTy.symm).trans hv, hrs⟩
    all_goals cases hsp
  | .specializedTemplate rightTemplates rightParams, left, common, templateArg, hsp, hst,
      hcom, hleft, hr => by
    cases left
    case type => exact succeeds_of_type hvalues hcom hleft hst hr
    case specializedTemplate leftTemplates leftParams =>
      rw [specializes, and_eq_true] at hsp
      rw [SignatureParam.setsKnown, and_eq_true, and_eq_true] at hst
      obtain ⟨commonTm, commonAs, rfl, hcom⟩ := describes_specializedTemplate hcom
      obtain ⟨template, signatureAs, rfl, hleft⟩ := describes_specializedTemplate hleft
      have hlen := specializesAll_length hsp.2
      have hrs := hleft.2.2.2
      rw [hlen] at hrs
      exact succeeds_specializedTemplate (hlen.symm.trans_le hleft.1)
        (templateSucceeds_of_specialize rightTemplates leftTemplates commonTm template
          hsp.1 hst.1.1 hst.1.2 hcom.2.1 hleft.2.1 hr.2.1)
        (allSucceed_of_specialize rightParams leftParams commonAs signatureAs hsp.2 hst.2
          hcom.2.2.1 hleft.2.2.1 hr.2.2.1) hrs
    all_goals cases hsp

theorem templateSucceeds_of_specialize : ∀ rs ls common template, specializesTemplates true ls rs = true →
    (decide (rs.length = 1) || rs.all SignatureParam.isTypeTemplate) = true →
    allSetsKnown rs = true → DescribesTemplate ctx (Accepts leftParams) ls common →
    DescribesTemplate ctx (DeducedFor leftArgs leftParams) ls template →
    DescribesTemplate ctx (DeducedFor known templateParams) rs common → Succeeds known leftArgs
        (matchTypeTemplates ctx templateParams (matchKnownTypes ctx templateParams) rs
          template) (standAgainst rs ls)
  | [], _, _, _, _, _, _, _, _, hr => hr.elim
  | [right], ls, common, template, hsp, _, hst, hcom, hleft, hr => by
    rw [allSetsKnown, and_eq_true] at hst
    match ls, hsp, hcom, hleft with
    | [left], hsp, hcom, hleft =>
      have hone := succeeds_of_specializes right left _ _ hsp hst.1 (hcom.resolve_right id)
        (hleft.resolve_right id) (hr.resolve_right id)
      rw [standAgainst, standAgainst, append_nil]
      · exact succeeds_first hone
      · simp
    | _ :: _ :: _, hsp, _, _ => simp [specializesTemplates] at hsp
  | first :: second :: rs, ls, _, template, hsp, hall, _, _, hleft, _ => by
    have hall : (first :: second :: rs).all SignatureParam.isTypeTemplate = true := by
      simpa using hall
    have heq : ls = first :: second :: rs := by
      match ls, hsp with
      | [], hsp | _ :: _ :: _, hsp => exact of_decide_eq_true hsp
    rw [heq] at hleft
    rw [standAgainst_of_known hall]
    intro pre as htrk hpw
    rw [matchTypeTemplates_of_known hall hleft as]
    exact succeeds_some pre as htrk hpw

theorem allSucceed_of_specialize : ∀ rs ls commons args, specializesAll true ls rs = true →
    allSetsKnown rs = true → DescribesAll ctx (Accepts leftParams) ls commons →
    DescribesAll ctx (DeducedFor leftArgs leftParams) ls args →
    DescribesAll ctx (DeducedFor known templateParams) rs commons → Succeeds known leftArgs
        (matchArgs ctx templateParams (matchKnownTypes ctx templateParams) rs args)
        (standAgainst rs ls)
  | [], _, _, _, _, _, _, _, _ => succeeds_some
  | _ :: _, [], _, _, hsp, _, _, _, _ => nomatch hsp
  | _ :: _, _ :: _, [], _, _, _, hcom, _, _ => hcom.elim
  | _ :: _, _ :: _, _ :: _, [], _, _, _, hleft, _ => hleft.elim
  | right :: rs, left :: ls, common :: commons, templateArg :: args, hsp, hst, hcom, hleft, hr => by
    rw [specializesAll, and_eq_true] at hsp
    rw [allSetsKnown, and_eq_true] at hst
    exact (succeeds_of_specializes right left common templateArg hsp.1 hst.1 hcom.1 hleft.1
      hr.1).bind (allSucceed_of_specialize rs ls commons args hsp.2 hst.2 hcom.2 hleft.2 hr.2)

theorem functionParamsSucceed_of_specialize : ∀ rs ls commons givens,
    specializesFunctionParams true ls rs = true →
    functionSetsKnown rs = true →
    DescribesFunctionParams ctx (Accepts leftParams) ls commons →
    DescribesFunctionParams ctx (DeducedFor leftArgs leftParams) ls givens →
    DescribesFunctionParams ctx (DeducedFor known templateParams) rs commons →
      Succeeds known leftArgs
        (matchFunctionParams ctx templateParams (matchKnownTypes ctx templateParams) rs givens)
        (functionParamsStandAgainst rs ls)
  | [], _, _, _, _, _, _, _, _ => succeeds_some
  | .mk _ _ :: _, [], _, _, hsp, _, _, _, _ => nomatch hsp
  | .mk _ _ :: _, .mk _ _ :: _, [], _, _, _, hcom, _, _ => hcom.elim
  | .mk _ _ :: _, .mk _ _ :: _, _ :: _, [], _, _, _, hleft, _ => hleft.elim
  | .mk right _ :: rs, .mk left _ :: ls, common :: commons, given :: givens, hsp, hst,
      hcom, hleft, hr => by
    rw [specializesFunctionParams, and_eq_true] at hsp
    rw [functionSetsKnown, and_eq_true] at hst
    have hfst := succeeds_of_specializes right left _ _ hsp.1 hst.1 hcom.2.1 hleft.2.1 hr.2.1
    have hrs := functionParamsSucceed_of_specialize rs ls commons givens hsp.2 hst.2
      hcom.2.2 hleft.2.2 hr.2.2
    exact (hfst.bind hrs).ite ((hleft.1.trans hcom.1.symm).trans hr.1)

end

end Special

end Following

end USprache.CodeBuilder.WithArgs

/-!
## Coherence of the comparison of template signatures

The comparison agrees with what the signatures match, but for parameters that are repeated: it
goes place by place and does not look whether two places have to be equal.
-/

namespace USprache.CodeBuilder.WithArgs

open Option

/-- Every template parameter that the right signature repeats stands against known things of the
left one, or against one template parameter of it. -/
def RepeatsAlike (left right : TemplateSignature) : Prop :=
  (standsAgainst right.param left.param).Pairwise RepeatedAlike

/-- What a more special signature matches, a less special one matches too. -/
theorem matches_of_specializes {ctx : MatchingContext} {l r : TemplateSignature}
    (hlVs : KnownValueTypes l.templateParams)
    (hrVs : KnownValueTypes r.templateParams) (hrep : RepeatsAlike l r)
    (hsp : specializes true l.param r.param = true) {common arg : TemplateArg}
    (hlCom : l.Matches ctx common) (hrCom : r.Matches ctx common)
    (h : l.Matches ctx arg) : r.Matches ctx arg := by
  obtain ⟨lAs, hl⟩ := h.deduced hlVs
  obtain ⟨known, hr⟩ := hrCom.deduced hrVs
  have hsuc : Succeeds known lAs
      (matchArg ctx r.templateParams (matchKnownTypes ctx r.templateParams) r.param
        arg) (standsAgainst r.param l.param) :=
    succeeds_of_specializes hlVs hrVs r.param l.param common arg hsp
      r.setsKnown hlCom.describes hl hr
  have htrk : TracksMatches known lAs [] fun _ => none := fun _ _ h => (nomatch h)
  obtain ⟨as, hargs, -⟩ := hsuc [] _ htrk hrep
  exact ⟨2, isSome_iff_exists.2 ⟨as, hargs⟩⟩

open ConversionsCompareResult

/-- For signatures that match something in common, and set no template parameter against a
coroutine, the comparison does not reach its assertion, is mirrored with the sides exchanged, is
transitive, and goes by what is matched.  For a parameter against a coroutine a branch is
missing. -/
theorem comparison_coherent (ctx : MatchingContext) (left right : TemplateSignature)
    (common : TemplateArg) (hleft : left.Matches ctx common) (hright : right.Matches ctx common)
    (hagainst : paramAgainstCoroutine left.param right.param = false)
    (hagainst' : paramAgainstCoroutine right.param left.param = false) :
    (∃ result, templateSpecializationCompare left.param right.param = some result ∧
      templateSpecializationCompare right.param left.param = some result.mirror) ∧
    (∀ middle result result', templateSpecializationCompare left.param middle = some result →
      templateSpecializationCompare middle right.param = some result' →
        result.leftHolds = true → result'.leftHolds = true →
          ∃ whole, templateSpecializationCompare left.param right.param = some whole ∧
            whole.leftHolds = true ∧ (whole = same ↔ result = same ∧ result' = same)) ∧
    (∀ middle result result', templateSpecializationCompare left.param middle = some result →
      templateSpecializationCompare middle right.param = some result' →
        result.rightHolds = true → result'.rightHolds = true →
          ∃ whole, templateSpecializationCompare left.param right.param = some whole ∧
            whole.rightHolds = true ∧ (whole = same ↔ result = same ∧ result' = same)) ∧
    (templateSpecializationCompare left.param right.param = some leftIsBetter →
      KnownValueTypes left.templateParams → KnownValueTypes right.templateParams →
        RepeatsAlike left right →
          ∀ templateArg, left.Matches ctx templateArg → right.Matches ctx templateArg) ∧
    ∀ index kindIndex kind returnType valueType references innerReferences kinds nonSync,
      templateSpecializationCompare (.templateParam index kindIndex) (.coroutine kind returnType valueType
          references innerReferences kinds nonSync) = none ∧
        templateSpecializationCompare (.coroutine kind returnType valueType references innerReferences
          kinds nonSync) (.templateParam index kindIndex) = some leftIsBetter := by
  obtain ⟨whole, hwhole⟩ := isSome_iff_exists.1 (compare_isSome left.param right.param common
    hleft.describes hright.describes hagainst)
  obtain ⟨back, hback⟩ := isSome_iff_exists.1 (compare_isSome right.param left.param common
    hright.describes hleft.describes hagainst')
  have hfound : ∀ {l r : SignatureParam} {result}, templateSpecializationCompare l r = some result →
      uncheckedCompare l r = result := fun h => by rw [uncheckedCompare, h, uncheckedResult_some]
  refine ⟨⟨whole, hwhole, ?_⟩, fun middle result result' h h' hl hr => ⟨whole, hwhole, ?_⟩,
    fun middle result result' h h' hl hr => ⟨whole, hwhole, ?_⟩, fun h hl hr hrepeats templateArg => ?_,
    fun _ _ _ _ _ _ _ _ _ => ⟨rfl, rfl⟩⟩
  · have hmirror := uncheckedCompare_mirror hagainst hagainst'
    rw [hfound hwhole, hfound hback] at hmirror
    rw [hback, hmirror]
  · rw [← hfound h] at hl ⊢
    rw [← hfound h'] at hr ⊢
    rw [← hfound hwhole]
    exact leftHolds_trans hl hr
  · rw [← hfound h] at hl ⊢
    rw [← hfound h'] at hr ⊢
    rw [← hfound hwhole]
    exact rightHolds_trans hagainst hl hr
  · have hleftIsBetter := hfound h
    rw [compare_eq_leftIsBetter_iff] at hleftIsBetter
    exact matches_of_specializes hl hr hrepeats hleftIsBetter.1 hleft hright

/-! ## Templates of pairs -/

def i32 : LangType := .fundamental .i32_

def f32 : LangType := .fundamental .f32_

variable (first second : LangType)

def typePair : TemplateArg := .type (.tuple [first, second])

def pairOfI32 : TemplateSignature where
  templateParams := [.type]
  param := .tuple [.type i32, .templateParam 0 0]
  setsKnown := rfl

def anyPair : TemplateSignature where
  templateParams := [.type, .type]
  param := .tuple [.templateParam 0 0, .templateParam 1 0]
  setsKnown := rfl

def equalPair : TemplateSignature where
  templateParams := [.type]
  param := .tuple [.templateParam 0 0, .templateParam 0 0]
  setsKnown := rfl

def plainContext : MatchingContext where
  sizeTypeBits := 64
  defaultArg _ _ _ := none

theorem pairOfI32_matches (second : LangType) :
    pairOfI32.Matches plainContext (typePair i32 second) := by
  refine ⟨1, ?_⟩
  simp [matchTemplateArg, pairOfI32, typePair, matchArg, matchArgs, matchTemplateParam]

theorem anyPair_matches :
    anyPair.Matches plainContext (typePair first second) := by
  refine ⟨1, ?_⟩
  simp [matchTemplateArg, anyPair, typePair, matchArg, matchArgs, matchTemplateParam,
    DeducedArgs.deduce]

theorem equalPair_matches_iff :
    equalPair.Matches plainContext (typePair first second) ↔ first = second := by
  constructor
  · rintro ⟨dep, hsm⟩
    cases dep with
    | zero => exact (nomatch hsm)
    | succ dep =>
      by_contra hne
      simp [matchTemplateArg, equalPair, typePair, matchArg, matchArgs, matchTemplateParam, hne] at hsm
  · rintro rfl
    refine ⟨1, ?_⟩
    simp [matchTemplateArg, equalPair, typePair, matchArg, matchArgs, matchTemplateParam]

theorem knownValueTypes_of_types {tmPars : List TemplateParamKind}
    (h : ∀ k ∈ tmPars, k = .type) : KnownValueTypes tmPars := by
  intro index paramType hk
  exact (nomatch h _ (List.mem_of_getElem? hk))

theorem comparison_coherent_pairs :
    templateSpecializationCompare pairOfI32.param anyPair.param = some leftIsBetter ∧
      templateSpecializationCompare anyPair.param pairOfI32.param = some rightIsBetter ∧
      ∀ templateArg, pairOfI32.Matches plainContext templateArg →
        anyPair.Matches plainContext templateArg := by
  have hcoherent := comparison_coherent plainContext pairOfI32 anyPair (typePair i32 f32)
    (pairOfI32_matches f32) (anyPair_matches i32 f32) rfl rfl
  have hrepeats : RepeatsAlike pairOfI32 anyPair := by
    simp [RepeatsAlike, RepeatedAlike, pairOfI32, anyPair, standsAgainst, standAgainst]
  refine ⟨rfl, rfl, hcoherent.2.2.2.1 rfl (knownValueTypes_of_types ?_)
    (knownValueTypes_of_types ?_) hrepeats⟩
  · simp [pairOfI32]
  · simp [anyPair]

/-- Both match a pair of `i32`, and the first is found to be more special, but only it matches a
pair of different types. -/
theorem comparison_not_consistent_repeated : pairOfI32.Matches plainContext (typePair i32 i32) ∧
    equalPair.Matches plainContext (typePair i32 i32) ∧
    templateSpecializationCompare pairOfI32.param equalPair.param = some leftIsBetter ∧
    pairOfI32.Matches plainContext (typePair i32 f32) ∧
    ¬ equalPair.Matches plainContext (typePair i32 f32) := by
  refine ⟨pairOfI32_matches i32, (equalPair_matches_iff i32 i32).2 rfl, rfl,
    pairOfI32_matches f32, fun h => ?_⟩
  have heq : i32 = f32 := (equalPair_matches_iff i32 f32).1 h
  simp [i32, f32] at heq

end USprache.CodeBuilder.WithArgs
