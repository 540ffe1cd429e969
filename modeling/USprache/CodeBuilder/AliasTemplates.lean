import Mathlib.Data.List.Induction
import USprache.CodeBuilder.SignatureParams

/-!
# Alias templates in template signatures

An alias template that is given arguments in a template signature is replaced by its body, if its
own signature is a list of template parameters and known things.  A known thing sets the flag of
the matching anew, so that it forgets what did not match in front of it.
-/

namespace USprache.CodeBuilder.WithArgs

open List Option

/-- A template of a type alias.  Its `body` is the signature parameter that is made of the value
of the alias in its own scope. -/
structure AliasTemplate where
  typeTemplate : TypeTemplate
  /-- `template_params.size()`. -/
  templateParams : Nat
  signatureParams : List SignatureParam
  body : SignatureParam
  signatureParams_below : ∀ param ∈ signatureParams, param.IndicesBelow templateParams
  body_below : body.IndicesBelow templateParams

inductive TypeTemplateInfo where
  | classTemplate (typeTemplate : TypeTemplate)
  | typeAlias (alias_ : AliasTemplate)

def TypeTemplateInfo.typeTemplate : TypeTemplateInfo → TypeTemplate
  | classTemplate typeTemplate => typeTemplate
  | typeAlias alias_ => alias_.typeTemplate

/-- What stands for `TemplateSignatureParam()`. -/
def unsetParam : SignatureParam := .type (.fundamental .void_)

/-- `alias_template_params_to_signature_params_mapping`, `param_known_flags` and
`params_matching_ok`. -/
structure AliasMatching where
  mapping : List SignatureParam
  paramKnownFlags : List Bool
  paramsMatchingOk : Bool

namespace AliasMatching

def start (templateParams : Nat) : AliasMatching :=
  ⟨replicate templateParams unsetParam, replicate templateParams false, true⟩

def step (state : AliasMatching) (pair : SignatureParam × SignatureParam) : AliasMatching :=
  let (dstParam, srcParam) := pair
  match dstParam with
  | .templateParam index _ =>
    if state.paramKnownFlags.getD index false then
      { state with
        paramsMatchingOk :=
          state.paramsMatchingOk && decide (state.mapping[index]? = some srcParam) }
    else
      { state with
        mapping := state.mapping.set index srcParam
        paramKnownFlags := state.paramKnownFlags.set index true }
  | .type dstType =>
    { state with
      paramsMatchingOk :=
        match srcParam with
        | .type srcType => decide (srcType = dstType)
        | _ => false }
  | .variable_ dstType dstValue =>
    { state with
      paramsMatchingOk :=
        match srcParam with
        | .variable_ srcType srcValue => decide (srcType = dstType ∧ srcValue = dstValue)
        | _ => false }
  | .typeTemplate dstTypeTemplate =>
    { state with
      paramsMatchingOk :=
        match srcParam with
        | .typeTemplate srcTypeTemplate => decide (srcTypeTemplate = dstTypeTemplate)
        | _ => false }
  | _ => { state with paramsMatchingOk := false }

end AliasMatching

variable (alias_ : AliasTemplate)

/-- Match an alias against the given parameters and replace the parameters of its body. -/
def expandAlias (specializedTemplateParams : List SignatureParam) :
    Option SignatureParam :=
  if alias_.signatureParams.length = specializedTemplateParams.length then
    let matching := (alias_.signatureParams.zip specializedTemplateParams).foldl
      AliasMatching.step (AliasMatching.start alias_.templateParams)
    if matching.paramKnownFlags.foldl (fun ok known => ok && known) matching.paramsMatchingOk then
      some (mapTemplateParamsToSignatureParams matching.mapping alias_.body)
    else none
  else none

/-- The expansion of a set of type templates that are given parameters, if it is taken. -/
def aliasExpansion : List TypeTemplateInfo → List SignatureParam → Option SignatureParam
  | [.typeAlias alias_], specializedTemplateParams => expandAlias alias_ specializedTemplateParams
  | _, _ => none

def allParamsAreKnown (params : List SignatureParam) : Bool :=
  params.all fun param => param.isType || param.isVariable

/-- `CreateTemplateSignatureParameterImpl` of arguments that are given to type templates.
`resolvedValue` is what the whole resolves to if all arguments are known. -/
def createSpecializedTemplate (resolvedValue : SignatureParam)
    (typeTemplates : List TypeTemplateInfo) (specializedTemplateParams : List SignatureParam) :
    SignatureParam :=
  if allParamsAreKnown specializedTemplateParams then resolvedValue
  else
    (aliasExpansion typeTemplates specializedTemplateParams).getD
      (.specializedTemplate (typeTemplates.map fun info => .typeTemplate info.typeTemplate)
        specializedTemplateParams)

abbrev ParamPair := SignatureParam × SignatureParam

/-- The parameters that are given to an alias, each with the one of its signature. -/
def AliasTemplate.pairs (given : List SignatureParam) : List ParamPair :=
  alias_.signatureParams.zip given

def Determined (given : List SignatureParam) : Prop :=
  ∀ index, index < alias_.templateParams →
    ∃ kind src, (.templateParam index kind, src) ∈ alias_.pairs given

structure Applies (given : List SignatureParam) : Prop where
  length : alias_.signatureParams.length = given.length
  repeated : ∀ index kind kind' src src', (.templateParam index kind, src) ∈ alias_.pairs given →
    (.templateParam index kind', src') ∈ alias_.pairs given → src = src'
  known : ∀ dst src, (dst, src) ∈ alias_.pairs given →
    (∃ index kind, dst = .templateParam index kind) ∨ dst.isKnown = true ∧ src = dst
  determined : Determined alias_ given

structure Expands (given : List SignatureParam)
    (result : SignatureParam) : Prop where
  replaced : ∃ mapping, mapping.length = alias_.templateParams ∧
    (∀ index kind src, (.templateParam index kind, src) ∈ alias_.pairs given →
      mapping[index]? = some src) ∧
    result = mapTemplateParamsToSignatureParams mapping alias_.body
  /-- Whatever the arguments of the enclosing template are, the result is what the body of the
  alias is for arguments of its own that its signature describes by them. -/
  denotes : ∀ genTemplateType s t, (∀ pair ∈ alias_.pairs given,
      denote genTemplateType t pair.1 = denote genTemplateType s pair.2) →
    denote genTemplateType s result = denote genTemplateType t alias_.body

def ExpandsRightly (given : List SignatureParam) : Prop :=
  allParamsAreKnown given = false → ∀ result, aliasExpansion [.typeAlias alias_] given = some result →
    Applies alias_ given ∧ Expands alias_ given result

def boundTo (pairs : List ParamPair) (index : Nat) : Option SignatureParam :=
  pairs.findSome? fun pair =>
    match pair.1 with
    | .templateParam i _ => if i = index then some pair.2 else none
    | _ => none

def KnownMatches (pair : ParamPair) : Prop := pair.1.isKnown = true ∧ pair.2 = pair.1

def PlaceMatches (before : List ParamPair) (pair : ParamPair) : Prop :=
  (∃ index kind, pair.1 = .templateParam index kind ∧
    ∀ src, boundTo before index = some src → src = pair.2) ∨ KnownMatches pair

def Recovered (pairs : List ParamPair) : Prop :=
  ∀ before pair after, pairs = before ++ pair :: after → ¬ PlaceMatches before pair →
    ∃ known ∈ after, KnownMatches known

def AllMatch (pairs : List ParamPair) : Prop :=
  ∀ before pair after, pairs = before ++ pair :: after → PlaceMatches before pair

theorem recovered_nil : Recovered [] := by
  intro pre pair after h
  cases pre <;> cases h

theorem recovered_concat (pairs : List ParamPair) (last : ParamPair) :
    Recovered (pairs ++ [last]) ↔ KnownMatches last ∨ Recovered pairs ∧ PlaceMatches pairs last := by
  constructor
  · intro h
    by_cases hkn : KnownMatches last
    · exact .inl hkn
    · refine .inr ⟨?_, ?_⟩
      · intro pre p post heq hnot
        have hsp : pairs ++ [last] = pre ++ p :: (post ++ [last]) := by simp [heq]
        obtain ⟨known, hmem, hmat⟩ := h pre p (post ++ [last]) hsp hnot
        rcases mem_append.1 hmem with hmem | hmem
        · exact ⟨known, hmem, hmat⟩
        · rw [mem_singleton.1 hmem] at hmat
          exact absurd hmat hkn
      · by_contra hnot
        obtain ⟨known, hmem, -⟩ := h pairs last [] rfl hnot
        cases hmem
  · intro h pre p post heq hnot
    rcases eq_nil_or_concat post with haf | ⟨post', y, haf⟩
    · rw [haf] at heq
      obtain ⟨hbef, hpr⟩ := append_inj' heq rfl
      cases hpr
      rw [hbef] at h
      rcases h with hkn | h
      · exact absurd (.inr hkn) hnot
      · exact absurd h.2 hnot
    · rw [haf, concat_eq_append, ← cons_append, ← append_assoc] at heq
      obtain ⟨hprs, hla⟩ := append_inj' heq rfl
      cases hla
      rcases h with hkn | h
      · exact ⟨last, by simp [haf], hkn⟩
      · obtain ⟨known, hmem, hmat⟩ := h.1 pre p post' hprs hnot
        exact ⟨known, by simp [haf, hmem], hmat⟩

theorem boundTo_append (pairs others : List ParamPair) (index : Nat) :
    boundTo (pairs ++ others) index = (boundTo pairs index).or (boundTo others index) :=
  findSome?_append

theorem boundTo_templateParam (index k i : Nat) (src : SignatureParam) :
    boundTo [(.templateParam index k, src)] i = if index = i then some src else none := by
  by_cases h : index = i <;> simp [boundTo]

theorem boundTo_of_not_templateParam {dst : SignatureParam} (src : SignatureParam)
    (h : ∀ index k, dst ≠ .templateParam index k) (i : Nat) : boundTo [(dst, src)] i = none := by
  cases dst with
  | templateParam index k => exact absurd rfl (h index k)
  | _ => rfl

variable {pairs : List ParamPair} {index templateParams : Nat} {state : AliasMatching}

theorem mem_of_boundTo {src : SignatureParam} (h : boundTo pairs index = some src) :
    ∃ k, (.templateParam index k, src) ∈ pairs := by
  obtain ⟨p, hmem, hpr⟩ := exists_of_findSome?_eq_some h
  obtain ⟨dst, src'⟩ := p
  cases dst with
  | templateParam i k =>
    simp only [ite_none_right_eq_some, some.injEq] at hpr
    rw [← hpr.1, ← hpr.2]
    exact ⟨k, hmem⟩
  | _ => cases hpr

theorem AllMatch.boundTo (h : AllMatch pairs) {kind : Nat}
    {src : SignatureParam} (hmem : (.templateParam index kind, src) ∈ pairs) :
    boundTo pairs index = some src := by
  obtain ⟨pre, after, hprs⟩ := append_of_mem hmem
  have hpl := h _ _ _ hprs
  rw [hprs, append_cons, boundTo_append, boundTo_append, boundTo_templateParam]
  cases hbef : WithArgs.boundTo pre index with
  | none => simp
  | some src' =>
    rcases hpl with ⟨i, k, heq, hbd⟩ | hkn
    · cases heq
      rw [hbd src' hbef]
      simp
    · cases hkn.1

theorem allMatch_iff (pairs : List ParamPair) : AllMatch pairs ↔
    (∀ index k k' src src', (.templateParam index k, src) ∈ pairs →
      (.templateParam index k', src') ∈ pairs → src = src') ∧
    ∀ dst src, (dst, src) ∈ pairs →
      (∃ index k, dst = .templateParam index k) ∨ dst.isKnown = true ∧ src = dst := by
  constructor
  · intro h
    constructor
    · intro index k k' src src' hmem hmem'
      have heq := (h.boundTo hmem).symm.trans (h.boundTo hmem')
      exact some.inj heq
    · intro dst src hmem
      obtain ⟨pre, post, hprs⟩ := append_of_mem hmem
      rcases h _ _ _ hprs with ⟨index, k, heq, -⟩ | hkn
      · exact .inl ⟨index, k, heq⟩
      · exact .inr hkn
  · rintro ⟨hrep, hkn⟩ pre pair post hprs
    have hmem : pair ∈ pairs := by simp [hprs]
    rcases hkn pair.1 pair.2 hmem with ⟨index, k, heq⟩ | hmat
    · refine .inl ⟨index, k, heq, fun src hbd => ?_⟩
      obtain ⟨k', hmem'⟩ := mem_of_boundTo hbd
      have hmem : (.templateParam index k, pair.2) ∈ pairs := by
        rw [← heq]
        exact hmem
      exact hrep index k' k src pair.2 (by simp [hprs, hmem']) hmem
    · exact .inr hmat

structure Tracks (templateParams : Nat) (pairs : List ParamPair) (state : AliasMatching) : Prop where
  mapping_length : state.mapping.length = templateParams
  flags_length : state.paramKnownFlags.length = templateParams
  flags : ∀ index, index < templateParams →
    state.paramKnownFlags.getD index false = (boundTo pairs index).isSome
  mapping : ∀ index src, index < templateParams → boundTo pairs index = some src →
    state.mapping[index]? = some src
  ok : state.paramsMatchingOk = true ↔ Recovered pairs

theorem tracks_start (templateParams : Nat) :
    Tracks templateParams [] (AliasMatching.start templateParams) where
  mapping_length := length_replicate
  flags_length := length_replicate
  flags index hix := by
    show (replicate templateParams false).getD index false = false
    rw [getD_replicate _ hix]
  mapping index src _ h := by cases h
  ok := ⟨fun _ => recovered_nil, fun _ => rfl⟩

theorem Tracks.setFlag
    (h : Tracks templateParams pairs state) {dst : SignatureParam} (src : SignatureParam)
    (hdst : ∀ index k, dst ≠ .templateParam index k) {ok : Bool}
    (hok : ok = true ↔ KnownMatches (dst, src)) :
    Tracks templateParams (pairs ++ [(dst, src)]) { state with paramsMatchingOk := ok } where
  mapping_length := h.mapping_length
  flags_length := h.flags_length
  flags index hix := by
    rw [boundTo_append, boundTo_of_not_templateParam src hdst, or_none]
    exact h.flags index hix
  mapping index src' hix hbd := by
    rw [boundTo_append, boundTo_of_not_templateParam src hdst, or_none] at hbd
    exact h.mapping index src' hix hbd
  ok := by
    rw [recovered_concat]
    show ok = true ↔ _
    rw [hok]
    constructor
    · exact .inl
    · rintro (hkn | ⟨-, hpl⟩)
      · exact hkn
      · rcases hpl with ⟨index, k, heq, -⟩ | hkn
        · exact absurd heq (hdst index k)
        · exact hkn

theorem not_knownMatches_templateParam (index k : Nat) (src : SignatureParam) :
    ¬ KnownMatches (.templateParam index k, src) := by
  intro h
  cases h.1

theorem placeMatches_templateParam (pairs : List ParamPair) (index kind : Nat)
    (src : SignatureParam) : PlaceMatches pairs (.templateParam index kind, src) ↔
      ∀ src', boundTo pairs index = some src' → src' = src := by
  constructor
  · rintro (⟨i, k, heq, hbd⟩ | hkn)
    · cases heq
      exact hbd
    · exact absurd hkn (not_knownMatches_templateParam index kind src)
  · exact fun h => .inl ⟨index, kind, rfl, h⟩

theorem Tracks.templateParam (h : Tracks templateParams pairs state) (k : Nat)
    (src : SignatureParam) (hix : index < templateParams) :
    Tracks templateParams (pairs ++ [(.templateParam index k, src)])
      (state.step (.templateParam index k, src)) := by
  have hrec := recovered_concat pairs (.templateParam index k, src)
  have hnot := not_knownMatches_templateParam index k src
  rw [placeMatches_templateParam] at hrec
  have hflag := h.flags index hix
  cases hbd : boundTo pairs index with
  | some first =>
    have hmap := h.mapping index first hix hbd
    rw [hbd, isSome_some] at hflag
    simp only [AliasMatching.step, hflag, if_true]
    refine ⟨h.mapping_length, h.flags_length, ?_, ?_, ?_⟩
    · intro i hi
      rw [h.flags i hi, boundTo_append, boundTo_templateParam]
      by_cases heq : index = i
      · rw [← heq, hbd]
        rfl
      · rw [if_neg heq, or_none]
    · intro i src' hi hsrc
      rw [boundTo_append, boundTo_templateParam] at hsrc
      apply h.mapping i src' hi
      by_cases heq : index = i
      · rw [← heq, hbd] at hsrc ⊢
        exact hsrc
      · rw [if_neg heq, or_none] at hsrc
        exact hsrc
    · show (state.paramsMatchingOk && _) = true ↔ _
      rw [Bool.and_eq_true, h.ok, decide_eq_true_eq, hmap, hrec, hbd]
      constructor
      · rintro ⟨hok, heq⟩
        refine .inr ⟨hok, fun src' hsrc => ?_⟩
        rw [← some.inj heq]
        exact (some.inj hsrc).symm
      · rintro (hkn | ⟨hok, heq⟩)
        · exact absurd hkn hnot
        · exact ⟨hok, congrArg some (heq first rfl)⟩
  | none =>
    rw [hbd] at hflag
    simp only [AliasMatching.step, hflag]
    have hlen := h.mapping_length
    have hfl := h.flags_length
    refine ⟨by simp [hlen], by simp [hfl], ?_, ?_, ?_⟩
    · intro i hi
      have hi' := h.flags i hi
      rw [boundTo_append, boundTo_templateParam]
      show (state.paramKnownFlags.set index true).getD i false = _
      rw [getD_eq_getElem?_getD, getElem?_set] 
      by_cases heq : index = i
      · rw [← heq, hbd, if_pos rfl, if_pos rfl, if_pos (by omega)]
        rfl
      · rw [if_neg heq, if_neg heq, or_none, ← hi', getD_eq_getElem?_getD]
    · intro i src' hi hsrc
      rw [boundTo_append, boundTo_templateParam] at hsrc
      show (state.mapping.set index src)[i]? = some src'
      rw [getElem?_set]
      by_cases heq : index = i
      · rw [← heq, hbd, if_pos rfl] at hsrc
        rw [if_pos heq, if_pos (by omega)]
        exact hsrc
      · rw [if_neg heq, or_none] at hsrc
        rw [if_neg heq]
        exact h.mapping i src' hi hsrc
    · show state.paramsMatchingOk = true ↔ _
      rw [h.ok, hrec, hbd]
      constructor
      · exact fun hok => .inr ⟨hok, fun src' hsrc => by cases hsrc⟩
      · rintro (hkn | h)
        · exact absurd hkn hnot
        · exact h.1

theorem Tracks.step (h : Tracks templateParams pairs state) {p : ParamPair}
    (hb : p.1.IndicesBelow templateParams) :
    Tracks templateParams (pairs ++ [p]) (state.step p) := by
  obtain ⟨dst, src⟩ := p
  cases dst with
  | templateParam index k => exact h.templateParam k src hb
  | type dstTy | variable_ dstTy dstValue | typeTemplate dstTypeTemplate =>
    apply h.setFlag src (by simp)
    cases src <;> simp [KnownMatches, SignatureParam.isKnown]
  | _ =>
    apply h.setFlag src (by simp)
    simp [KnownMatches, SignatureParam.isKnown]

theorem tracks_run (pairs : List ParamPair) (hb : ∀ p ∈ pairs, p.1.IndicesBelow templateParams) :
    Tracks templateParams pairs (pairs.foldl AliasMatching.step (AliasMatching.start templateParams)) := by
  induction pairs using reverseRecOn with
  | nil => exact tracks_start templateParams
  | append_singleton pairs last ih =>
    rw [foldl_append]
    exact (ih fun p hmem => hb p (by simp [hmem])).step (hb last (by simp))

theorem foldl_flags (flags : List Bool) (ok : Bool) :
    flags.foldl (fun ok known => ok && known) ok = true ↔ ok = true ∧ ∀ known ∈ flags, known = true := by
  induction flags generalizing ok with
  | nil => simp
  | cons flag flags ih => simp [ih, and_assoc]

theorem boundTo_isSome :
    (boundTo pairs index).isSome = true ↔ ∃ k src, (.templateParam index k, src) ∈ pairs := by
  constructor
  · intro h
    obtain ⟨src, hsrc⟩ := isSome_iff_exists.1 h
    obtain ⟨k, hmem⟩ := mem_of_boundTo hsrc
    exact ⟨k, src, hmem⟩
  · rintro ⟨k, src, hmem⟩
    exact findSome?_isSome_iff.2 ⟨_, hmem, by simp⟩

namespace AliasTemplate

variable (given : List SignatureParam)

theorem pairs_below : ∀ p ∈ alias_.pairs given, p.1.IndicesBelow alias_.templateParams := by
  intro p hmem
  exact alias_.signatureParams_below _ (of_mem_zip hmem).1

def matching : AliasMatching :=
  (alias_.pairs given).foldl AliasMatching.step (AliasMatching.start alias_.templateParams)

theorem tracks_matching : Tracks alias_.templateParams (alias_.pairs given) (alias_.matching given) :=
  tracks_run (alias_.pairs given) (alias_.pairs_below given)

theorem flags_iff : (∀ known ∈ (alias_.matching given).paramKnownFlags, known = true) ↔
    Determined alias_ given := by
  have h := alias_.tracks_matching given
  constructor
  · intro hfl index hix
    rw [← boundTo_isSome, ← h.flags index hix, getD_eq_getElem _ _ (by
      rw [h.flags_length]
      exact hix)]
    exact hfl _ (getElem_mem _)
  · intro hdet known hmem
    obtain ⟨index, hix, hkn⟩ := getElem_of_mem hmem
    have hlt : index < alias_.templateParams := by
      rw [← h.flags_length]
      exact hix
    rw [← hkn, ← getD_eq_getElem _ false hix, h.flags index hlt, boundTo_isSome]
    exact hdet index hlt

theorem expandAlias_eq_some (r : SignatureParam) : expandAlias alias_ given = some r ↔
    alias_.signatureParams.length = given.length ∧ Determined alias_ given ∧
      Recovered (alias_.pairs given) ∧
      r = mapTemplateParamsToSignatureParams (alias_.matching given).mapping alias_.body := by
  have hok := (alias_.tracks_matching given).ok
  have hfl := foldl_flags (alias_.matching given).paramKnownFlags
    (alias_.matching given).paramsMatchingOk
  rw [alias_.flags_iff given, hok] at hfl
  unfold expandAlias
  by_cases hlen : alias_.signatureParams.length = given.length
  · rw [if_pos hlen]
    show (if (alias_.matching given).paramKnownFlags.foldl (fun ok known => ok && known)
      (alias_.matching given).paramsMatchingOk = true then
        some (mapTemplateParamsToSignatureParams (alias_.matching given).mapping alias_.body)
      else none) = some r ↔ _
    rw [ite_none_right_eq_some, hfl, some.injEq]
    constructor
    · rintro ⟨⟨hrec, hdet⟩, heq⟩
      exact ⟨hlen, hdet, hrec, heq.symm⟩
    · rintro ⟨-, hdet, hrec, heq⟩
      exact ⟨⟨hrec, hdet⟩, heq.symm⟩
  · rw [if_neg hlen]
    constructor
    · intro h
      cases h
    · exact fun h => absurd h.1 hlen

theorem expands_of_applies (h : Applies alias_ given) : Expands alias_ given
    (mapTemplateParamsToSignatureParams (alias_.matching given).mapping alias_.body) := by
  have htrk := alias_.tracks_matching given
  have hall : AllMatch (alias_.pairs given) := (allMatch_iff _).2 ⟨h.repeated, h.known⟩
  have hmap : ∀ index k src, (.templateParam index k, src) ∈ alias_.pairs given →
      (alias_.matching given).mapping[index]? = some src := by
    intro index k src hmem
    exact htrk.mapping index src (alias_.pairs_below given _ hmem) (hall.boundTo hmem)
  constructor
  · exact ⟨_, htrk.mapping_length, hmap, rfl⟩
  · intro genTemplateType s t hden
    apply denote_map
    · intro index src hsrc
      have hix : index < alias_.templateParams := by
        rw [← htrk.mapping_length]
        exact (List.getElem?_eq_some_iff.1 hsrc).1
      obtain ⟨k, src', hmem⟩ := h.determined index hix
      rw [hmap index k src' hmem] at hsrc
      rw [← some.inj hsrc]
      exact hden _ hmem
    · rw [htrk.mapping_length]
      exact alias_.body_below

end AliasTemplate

def MismatchHidden (given : List SignatureParam) : Prop :=
  allParamsAreKnown given = false ∧ alias_.signatureParams.length = given.length ∧
    Determined alias_ given ∧ ¬ AllMatch (alias_.pairs given) ∧ Recovered (alias_.pairs given)

/-- An alias is expanded rightly unless a mismatch is hidden. -/
theorem expandsRightly_iff (given : List SignatureParam) :
    ExpandsRightly alias_ given ↔ ¬ MismatchHidden alias_ given := by
  have hexpand := alias_.expandAlias_eq_some given
  constructor
  · rintro h ⟨hunknown, hlength, hdetermined, hnot, hrecovered⟩
    have happlies := (h hunknown _ ((hexpand _).2 ⟨hlength, hdetermined, hrecovered, rfl⟩)).1
    exact hnot ((allMatch_iff _).2 ⟨happlies.repeated, happlies.known⟩)
  · intro h hunknown result hresult
    obtain ⟨hlength, hdetermined, hrecovered, heq⟩ := (hexpand result).1 hresult
    have hall : AllMatch (alias_.pairs given) := by
      by_contra hnot
      exact h ⟨hunknown, hlength, hdetermined, hnot, hrecovered⟩
    obtain ⟨hrepeated, hknown⟩ := (allMatch_iff _).1 hall
    have happlies : Applies alias_ given := ⟨hlength, hrepeated, hknown, hdetermined⟩
    rw [heq]
    exact ⟨happlies, alias_.expands_of_applies given happlies⟩

/-- `template</type T/> type A</T, T, i32/> = T;`. -/
def repeatingAlias : AliasTemplate where
  typeTemplate := .mk .root [] 0
  templateParams := 1
  signatureParams := [.templateParam 0 0, .templateParam 0 0, .type (.fundamental .i32_)]
  body := .templateParam 0 0
  signatureParams_below := by simp [SignatureParam.IndicesBelow]
  body_below := by simp [SignatureParam.IndicesBelow]

/-- `A</X, bool, i32/>` is taken for `X`. -/
theorem not_expandsRightly_repeating : ¬ ExpandsRightly repeatingAlias
    [.templateParam 0 0, .type (.fundamental .bool_), .type (.fundamental .i32_)] := by
  intro h
  have hresult : aliasExpansion [.typeAlias repeatingAlias]
      [.templateParam 0 0, .type (.fundamental .bool_), .type (.fundamental .i32_)] =
        some (.templateParam 0 0) := by
    simp [aliasExpansion, expandAlias, repeatingAlias, AliasMatching.step, AliasMatching.start,
      mapTemplateParamsToSignatureParams]
  have happlies := (h rfl _ hresult).1
  have heq := happlies.repeated 0 0 0 (.templateParam 0 0) (.type (.fundamental .bool_))
    (by simp [AliasTemplate.pairs, repeatingAlias]) (by simp [AliasTemplate.pairs, repeatingAlias])
  cases heq

end USprache.CodeBuilder.WithArgs
