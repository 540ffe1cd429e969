import USprache.CodeBuilder.CoroutineTags

/-!
# The reference notation of a coroutine type

For each function type the notation checks let through: the coroutine type remembers which
parameter each reference came from exactly when inner references of the result come from
first tags only.
-/

namespace USprache.CodeBuilder

open List FunctionType

def NamesReference (types : BuiltTypes) (params : List FunctionParam)
    (reference : ParamReference) : Prop :=
  ∃ param, params[reference.first.toNat]? = some param ∧
    if reference.second = paramReferenceNumber then param.valueType ≠ .value
    else param.valueType = .value ∧ reference.second.toNat < types.referenceTagCount param.type

section Translated

variable {types : BuiltTypes} {params : List FunctionParam} {firstTags : List Nat}
  {reference : ParamReference}

variable (hfst : ∀ p < params.length, firstTags[p]? = some (firstTag types params p))

include hfst

theorem getD_firstTags
    {p : Nat} {param : FunctionParam} (hp : params[p]? = some param) :
    firstTags.getD p 0 = firstTag types params p := by
  have hlt := (List.getElem?_eq_some_iff.1 hp).1
  rw [getD_eq_getElem?_getD, hfst p hlt]
  rfl

theorem translateReturnReference_eq
    (h : NamesReference types params reference) :
    ∃ t : Nat, (referencesFrom types 0 params)[t]? =
        some (reference.first.toNat, reference.second.toNat) ∧
      (translateReturnReference params firstTags reference).1 = [⟨0, t.toUInt8⟩] := by
  obtain ⟨param, hp, h⟩ := h
  have hget := getD_firstTags hfst hp
  split at h
  next hnum =>
    refine ⟨firstTag types params reference.first.toNat, ?_, ?_⟩
    · rw [hnum]
      exact getElem?_of_reference hp h
    · rw [translateReturnReference, hp]
      simp only [hnum, if_true, outReferenceOfParam, if_neg h, hget]
  next hnum =>
    refine ⟨firstTag types params reference.first.toNat + reference.second.toNat, ?_, ?_⟩
    · exact getElem?_of_value hp h.1 h.2
    · rw [translateReturnReference, hp]
      simp only [if_neg hnum, hget]

def takenFor (reference : ParamReference) : Nat × Nat := (reference.first.toNat,
    if reference.second = paramReferenceNumber then paramReferenceNumber.toNat else 0)

theorem translateReturnInnerReference_eq
    (h : NamesReference types params reference) :
    ∃ t : Nat, (referencesFrom types 0 params)[t]? = some (takenFor reference) ∧
      (translateReturnInnerReference params firstTags reference).1 = [⟨0, t.toUInt8⟩] := by
  obtain ⟨param, hp, h⟩ := h
  have hget := getD_firstTags hfst hp
  refine ⟨firstTag types params reference.first.toNat, ?_⟩
  split at h
  next hnum =>
    constructor
    · rw [takenFor, if_pos hnum]
      exact getElem?_of_reference hp h
    · rw [translateReturnInnerReference, hp]
      simp only [hnum, if_true, outReferenceOfParam, if_neg h, hget]
  next hnum =>
    constructor
    · rw [takenFor, if_neg hnum]
      exact getElem?_of_value hp h.1 (Nat.zero_lt_of_lt h.2)
    · rw [translateReturnInnerReference, hp]
      simp only [if_neg hnum, hget]
      rfl

omit hfst

theorem mem_translated_iff {translate : ParamReference → List ParamReference × List CoroutineError}
    {meaning : ParamReference → Nat × Nat} {refs : ReturnReferences}
    (h : ∀ reference ∈ refs, ∃ t : Nat,
      (referencesFrom types 0 params)[t]? = some (meaning reference) ∧
        (translate reference).1 = [⟨0, t.toUInt8⟩]) (out : ParamReference) :
    out ∈ normalizeParamReferencesList ((refs.map translate).flatMap (fun o => o.1)) ↔
      ∃ reference ∈ refs, ∃ t : Nat,
        (referencesFrom types 0 params)[t]? = some (meaning reference) ∧ out = ⟨0, t.toUInt8⟩ := by
  rw [mem_normalizeParamReferencesList, flatMap_map, mem_flatMap]
  apply exists_congr
  intro reference
  apply and_congr_right
  intro hmem
  obtain ⟨t, hget, htra⟩ := h reference hmem
  rw [htra, mem_singleton]
  constructor
  · intro hout
    exact ⟨t, hget, hout⟩
  · intro ⟨t', hget', hout⟩
    rw [hout, position_unique hget hget']

end Translated

section Nodes

variable {types : BuiltTypes} {V : Type} [DecidableEq V]

theorem findIdx?_node {ns : List V} (hnode : ns.Nodup) {k : Nat} {n : V} (h : ns[k]? = some n) :
    ns.findIdx? (fun other => decide (n = other)) = some k := by
  obtain ⟨hlt, hget⟩ := List.getElem?_eq_some_iff.1 h
  rw [findIdx?_eq_some_iff_getElem]
  refine ⟨hlt, decide_eq_true hget.symm, ?_⟩
  intro j hj heq
  have hsame : ns[j] = ns[k] := (of_decide_eq_true heq).symm.trans hget.symm
  have hjk := (Nodup.getElem_inj_iff hnode).1 hsame
  omega

theorem findIdx?_node_none {ns : List V} {n : V} (h : n ∉ ns) :
    ns.findIdx? (fun other => decide (n = other)) = none := by
  rw [findIdx?_eq_none_iff]
  intro other ho
  rw [decide_eq_false_iff_not]
  intro heq
  exact h (heq ▸ ho)

def argNodes (arg : FunctionParam × V × List V) : List V := arg.2.1 :: arg.2.2

omit [DecidableEq V] in
theorem NodeOf.mem {as : List (FunctionParam × V × List V)} {p k : Nat} {n : V}
    (h : NodeOf as p k n) : n ∈ as.flatMap argNodes := by
  obtain ⟨arg, harg, hnode⟩ := h
  apply mem_flatMap.2
  refine ⟨arg, mem_of_getElem? harg, ?_⟩
  split at hnode
  · exact mem_cons_of_mem _ (mem_of_getElem? hnode)
  · rw [hnode.1]
    exact mem_cons_self

theorem getCoroutineInnerReferenceForParamNodeFrom_eq {n : V} {k : Nat} :
    ∀ {as : List (FunctionParam × V × List V)} {p : Nat} (idx i : Nat),
      (as.flatMap argNodes).Nodup →
      (∀ arg ∈ as, arg.2.2.length = types.referenceTagCount arg.1.type) →
      NodeOf as p k n →
      ∃ t, (referencesFrom types i (as.map (fun arg => arg.1)))[t]? = some (i + p, k) ∧
        getCoroutineInnerReferenceForParamNodeFrom types n idx as =
          some ⟨0, (idx + t).toUInt8⟩ := by
  intro as
  induction as with
  | nil =>
    intro p idx i _ _ ⟨arg, harg, _⟩
    simp at harg
  | cons first as ih =>
    intro p idx i hnodup hlens hnode
    obtain ⟨param, argN, tagNs⟩ := first
    have hlen : tagNs.length = types.referenceTagCount param.type := hlens _ mem_cons_self
    rw [flatMap_cons, nodup_append'] at hnodup
    obtain ⟨hfst, hrs, hdj⟩ := hnodup
    have htags : tagNs.Nodup := (nodup_cons.1 hfst).2
    rw [map_cons, referencesFrom, getCoroutineInnerReferenceForParamNodeFrom]
    cases p with
    | zero =>
      obtain ⟨arg, harg, hnode⟩ := hnode
      have harg := (Option.some.inj harg).symm
      subst harg
      by_cases hv : param.valueType = .value
      · rw [if_pos hv] at hnode
        have hk : k < types.referenceTagCount param.type :=
          hlen ▸ (List.getElem?_eq_some_iff.1 hnode).1
        refine ⟨k, ?_, ?_⟩
        · have hget := getElem?_paramReferences_value types hv hk i
          rw [getElem?_append_left (List.getElem?_eq_some_iff.1 hget).1]
          exact hget
        · rw [if_pos hv, findIdx?_node htags hnode]
      · rw [if_neg hv] at hnode
        refine ⟨0, ?_, ?_⟩
        · rw [paramReferences, if_neg hv, hnode.2]
          rfl
        · rw [if_neg hv, if_pos hnode.1, add_zero]
    | succ p =>
      have hlt : NodeOf as p k n := hnode
      have hnot : n ∉ argNodes (param, argN, tagNs) := fun hmem => hdj hmem hlt.mem
      have hne : n ≠ argN ∧ n ∉ tagNs := by
        rw [argNodes, mem_cons, not_or] at hnot
        exact hnot
      obtain ⟨t, hget, hfd⟩ := ih (idx + (paramReferences types i param).length) (i + 1)
        hrs (fun arg harg => hlens arg (mem_cons_of_mem _ harg)) hlt
      refine ⟨(paramReferences types i param).length + t, ?_, ?_⟩
      · rw [getElem?_append_right (Nat.le_add_right _ _), Nat.add_sub_cancel_left, hget,
          show i + 1 + p = i + (p + 1) by omega]
      · rw [← add_assoc, ← hfd]
        by_cases hv : param.valueType = .value
        · rw [findIdx?_node_none hne.2]
          simp [paramReferences, hv]
        · rw [if_neg hne.1]
          simp [paramReferences, hv]

end Nodes

namespace AcceptedCoroutine

variable {types : BuiltTypes} {functionType : FunctionType} {kind : CoroutineKind} {nonSync : Bool}

variable (h : AcceptedCoroutine types functionType kind nonSync)

include h

theorem firstTags (p : Nat)
    (hp : p < functionType.params.length) :
    (collectParams types 0 functionType.params {}).paramToFirstInnerReferenceTag[p]? =
      some (firstTag types functionType.params p) := by
  have hsp := (collectParams_spec types 0 {} h.complete).1 p hp
  rw [length_nil, length_nil, zero_add, zero_add] at hsp
  exact hsp

theorem references_eq :
    (transformCoroutineFunctionType types functionType kind
      nonSync).functionType.returnInnerReferences =
        tagReferences (referencesFrom types 0 functionType.params) := by
  cases functionType
  exact (collectParams_spec types 0 {} h.complete).2.2.2.1

theorem innerReferences_length :
    (transformCoroutineFunctionType types functionType kind
      nonSync).description.innerReferences.length =
        (referencesFrom types 0 functionType.params).length := by
  cases functionType
  have hsp := (collectParams_spec types 0 {} h.complete).2.2.1
  rw [length_nil, zero_add] at hsp
  exact hsp

theorem references_length_lt :
    (referencesFrom types 0 functionType.params).length < 255 := by
  have hfew := h.fewTags
  rw [h.innerReferences_length] at hfew
  exact hfew

theorem referenceParam
    {param : FunctionParam} (hmem : param ∈ functionType.params)
    (hv : param.valueType ≠ .value) : types.referenceTagCount param.type = 0 := by
  obtain ⟨errors, herrs, hchk⟩ := (collectParams_spec types 0 {} h.complete).2.2.2.2
  have hnil : (collectParams types 0 functionType.params {}).errors = [] := by
    cases functionType
    have htr := h.transformed
    simp only [transformCoroutineFunctionType, append_eq_nil_iff] at htr
    exact htr.1.1.2
  rw [hnil] at herrs
  exact hchk (append_eq_nil_iff.1 herrs.symm).2 param hmem hv

variable {reference : ParamReference}

/-- A reference neither check complains about names a parameter or one of its tags. -/
theorem namesReference (hrg : reference.first.toNat < functionType.params.length)
    (hchd : checkParamReference types functionType.params reference = [])
    (hv : ∀ param, functionType.params[reference.first.toNat]? = some param →
      reference.second = paramReferenceNumber → param.valueType ≠ .value) :
    NamesReference types functionType.params reference := by
  have hp := getElem?_eq_getElem hrg
  refine ⟨functionType.params[reference.first.toNat], hp, ?_⟩
  split
  next hnum => exact hv _ hp hnum
  next hnum =>
    rw [checkParamReference, if_neg hnum, hp] at hchd
    simp only at hchd
    split at hchd
    next => exact absurd hchd (cons_ne_nil _ _)
    next hlt =>
      have hlt' := Nat.lt_of_not_le hlt
      constructor
      · by_contra hne
        rw [h.referenceParam (getElem_mem hrg) hne] at hlt'
        exact Nat.not_lt_zero _ hlt'
      · exact hlt'

theorem namesReturnReference (hmem : reference ∈ functionType.returnReferences) :
    NamesReference types functionType.params reference := by
  apply h.namesReference (h.inRange reference hmem)
  · have hchd := h.checked
    simp only [performCoroutineFunctionReferenceNotationChecks,
      checkFunctionReferencesNotationInnerReferences, append_eq_nil_iff,
      flatMap_eq_nil_iff] at hchd
    exact hchd.2.1.1.2 reference hmem
  · intro param hp hnum hv
    cases functionType
    have htr := h.transformed
    simp only [transformCoroutineFunctionType, append_eq_nil_iff, flatMap_map,
      flatMap_eq_nil_iff] at htr
    have href := htr.1.2 reference hmem
    rw [params] at hp
    simp [translateReturnReference, hp, hnum, outReferenceOfParam, hv] at href

variable {refs : ReturnReferences}

theorem namesReturnInnerReference (hmem : refs ∈ functionType.returnInnerReferences)
    (href : reference ∈ refs) :
    NamesReference types functionType.params reference := by
  apply h.namesReference (h.innerInRange refs hmem reference href)
  · have hchd := h.checked
    simp only [performCoroutineFunctionReferenceNotationChecks,
      checkFunctionReferencesNotationInnerReferences, append_eq_nil_iff,
      flatMap_eq_nil_iff] at hchd
    exact hchd.2.1.2 reference (mem_flatten_of_mem hmem href)
  · intro param hp hnum hv
    cases functionType
    have htr := h.transformed
    simp only [transformCoroutineFunctionType, append_eq_nil_iff, flatMap_map,
      flatMap_eq_nil_iff] at htr
    have htra := htr.2 _ hmem reference href
    rw [params] at hp
    simp [translateReturnInnerReference, hp, hnum, outReferenceOfParam, hv] at htra

theorem correspondsTo_iff
    (hnmd : ParamsAreNumbered types functionType) (t p k : Nat) :
    (transformCoroutineFunctionType types functionType kind nonSync).CorrespondsTo t p k ↔
      (referencesFrom types 0 functionType.params)[t]? = some (p, k) := by
  rw [TransformedCoroutine.CorrespondsTo, h.references_eq, tagReferences, getElem?_map]
  constructor
  · rintro ⟨reference, hget, hp, hk⟩
    cases hr : (referencesFrom types 0 functionType.params)[t]? with
    | none =>
      rw [hr] at hget
      cases hget
    | some r =>
      rw [hr] at hget
      have hlt := hnmd r.1 r.2 (mem_references_iff.1 (mem_of_getElem? hr))
      have hlt' : r.2 < 256 := tag_lt_of_getElem? h.references_length_lt hr
      have href := (cons.inj (Option.some.inj hget)).1
      subst href
      rw [UInt8.toNat_ofNat'] at hp hk
      rw [Nat.mod_eq_of_lt hlt] at hp
      rw [Nat.mod_eq_of_lt hlt'] at hk
      rw [← hp, ← hk]
  · intro hget
    have hlt := hnmd p k (mem_references_iff.1 (mem_of_getElem? hget))
    have hlt' : k < 256 := tag_lt_of_getElem? h.references_length_lt hget
    refine ⟨⟨p.toUInt8, k.toUInt8⟩, by rw [hget]; rfl, ?_, ?_⟩
    · exact UInt8.toNat_ofNat_of_lt' hlt
    · exact UInt8.toNat_ofNat_of_lt' hlt'

theorem toNat_tag {t : Nat}
    {r : Nat × Nat} (hget : (referencesFrom types 0 functionType.params)[t]? = some r) :
    t.toUInt8.toNat = t := by
  have hlt := (List.getElem?_eq_some_iff.1 hget).1
  have hfew := h.references_length_lt
  apply UInt8.toNat_ofNat_of_lt'
  show t < 256
  omega

theorem mem_returnReferences_iff
    (out : ParamReference) :
    out ∈ (transformCoroutineFunctionType types functionType kind
        nonSync).description.returnReferences ↔
      ∃ reference ∈ functionType.returnReferences, ∃ t : Nat,
        (referencesFrom types 0 functionType.params)[t]? =
          some (reference.first.toNat, reference.second.toNat) ∧ out = ⟨0, t.toUInt8⟩ := by
  have htra := mem_translated_iff
    (fun reference hmem => translateReturnReference_eq h.firstTags (h.namesReturnReference hmem))
    out
  cases functionType
  exact htra

variable {outs : ReturnReferences}

theorem mem_returnInnerReferences_iff
    {i : Nat} (hrefs : functionType.returnInnerReferences[i]? = some refs)
    (houts : (transformCoroutineFunctionType types functionType kind
      nonSync).description.returnInnerReferences[i]? = some outs) (out : ParamReference) :
    out ∈ outs ↔ ∃ reference ∈ refs, ∃ t : Nat,
      (referencesFrom types 0 functionType.params)[t]? = some (takenFor reference) ∧
        out = ⟨0, t.toUInt8⟩ := by
  have hmem := mem_of_getElem? hrefs
  have htra := mem_translated_iff (fun reference href =>
      translateReturnInnerReference_eq h.firstTags (h.namesReturnInnerReference hmem href))
  rw [← htra]
  cases functionType
  simp only [transformCoroutineFunctionType, CoroutineTypeDescription.returnInnerReferences,
    getElem?_map] at houts
  rw [returnInnerReferences] at hrefs
  rw [hrefs] at houts
  rw [← Option.some.inj houts]
  rfl

/-- With numbered parameters the tags in a list of references are those of the references
the translation takes them for. -/
theorem holdsTagsOf_iff
    (hnmd : ParamsAreNumbered types functionType) (outs refs : ReturnReferences) :
    (transformCoroutineFunctionType types functionType kind nonSync).HoldsTagsOf outs refs ↔
      ∀ out, out ∈ outs ↔ ∃ reference ∈ refs, ∃ t : Nat,
        (referencesFrom types 0 functionType.params)[t]? =
          some (reference.first.toNat, reference.second.toNat) ∧ out = ⟨0, t.toUInt8⟩ := by
  unfold TransformedCoroutine.HoldsTagsOf
  simp only [h.correspondsTo_iff hnmd]
  apply forall_congr'
  intro out
  apply iff_congr Iff.rfl
  apply exists_congr
  intro reference
  apply and_congr_right
  intro _
  apply exists_congr
  intro t
  apply and_congr_right
  intro hget
  constructor
  · intro ⟨hfst, hsnd⟩
    cases out
    congr 1
    exact UInt8.toNat_inj.1 (hsnd.trans (h.toNat_tag hget).symm)
  · intro hout
    subst hout
    exact ⟨rfl, h.toNat_tag hget⟩

theorem holdsTagsOf_inner_iff
    (hnmd : ParamsAreNumbered types functionType) {i : Nat}
    (hrefs : functionType.returnInnerReferences[i]? = some refs)
    (houts : (transformCoroutineFunctionType types functionType kind
      nonSync).description.returnInnerReferences[i]? = some outs) :
    (transformCoroutineFunctionType types functionType kind nonSync).HoldsTagsOf outs refs ↔
      ∀ reference ∈ refs, reference.second = 0 ∨ reference.second = paramReferenceNumber := by
  rw [h.holdsTagsOf_iff hnmd]
  simp only [h.mem_returnInnerReferences_iff hrefs houts]
  constructor
  · intro heq reference hmem
    -- The tag of the reference is in the list, and is a first tag there.
    obtain ⟨t, hget, -⟩ := translateReturnReference_eq h.firstTags
      (h.namesReturnInnerReference (mem_of_getElem? hrefs) hmem)
    obtain ⟨other, -, t', hget', hout⟩ := (heq ⟨0, t.toUInt8⟩).2 ⟨reference, hmem, t, hget, rfl⟩
    have htag : t = t' := by
      have hsnd := congrArg (fun r : ParamReference => r.second.toNat) hout
      simp only [h.toNat_tag hget, h.toNat_tag hget'] at hsnd
      exact hsnd
    subst htag
    have hkey := congrArg Prod.snd (Option.some.inj (hget.symm.trans hget'))
    simp only [takenFor] at hkey
    split at hkey
    · exact .inr (UInt8.toNat_inj.1 hkey)
    · exact .inl (UInt8.toNat_inj.1 hkey)
  · intro hfst out
    apply exists_congr
    intro reference
    apply and_congr_right
    intro hmem
    have hkey : takenFor reference = (reference.first.toNat, reference.second.toNat) := by
      rcases hfst reference hmem with hz | hnum
      · rw [takenFor, hz]
        rfl
      · rw [takenFor, hnum]
        rfl
    rw [hkey]

omit h in
theorem paramNode_eq {V : Type} [DecidableEq V] (ns : ArgsNodes types functionType.params V)
    {p k : Nat} {n : V} (hnode : NodeOf ns.args p k n) :
    ∃ t : Nat, (referencesFrom types 0 functionType.params)[t]? = some (p, k) ∧
      getCoroutineInnerReferenceForParamNode types ns.args n = some ⟨0, t.toUInt8⟩ := by
  obtain ⟨t, hget, hfd⟩ := @getCoroutineInnerReferenceForParamNodeFrom_eq types V _
    n k ns.args p 0 0 ns.nodup ns.tagNodes_length hnode
  rw [zero_add, ns.params_eq] at hget
  rw [zero_add] at hfd
  exact ⟨t, hget, hfd⟩

/-- A node passes a check exactly when the notation names the reference of the node. -/
theorem mem_iff_of_holdsTagsOf
    (hnmd : ParamsAreNumbered types functionType)
    (hh : (transformCoroutineFunctionType types functionType kind nonSync).HoldsTagsOf outs
      refs) {t p k : Nat}
    (hget : (referencesFrom types 0 functionType.params)[t]? = some (p, k)) :
    (⟨0, t.toUInt8⟩ : ParamReference) ∈ outs ↔
      ∃ reference ∈ refs, reference.first.toNat = p ∧ reference.second.toNat = k := by
  rw [(h.holdsTagsOf_iff hnmd outs refs).1 hh]
  apply exists_congr
  intro reference
  apply and_congr_right
  intro _
  constructor
  · intro ⟨t', hget', hout⟩
    have hsnd := congrArg (fun r : ParamReference => r.second.toNat) hout
    simp only [h.toNat_tag hget, h.toNat_tag hget'] at hsnd
    subst hsnd
    have heq := Option.some.inj (hget'.symm.trans hget)
    exact ⟨congrArg Prod.fst heq, congrArg Prod.snd heq⟩
  · intro ⟨hp, hk⟩
    exact ⟨t, by rw [hp, hk]; exact hget, rfl⟩

omit h in
theorem returnInnerReferences_length (functionType : FunctionType) :
    (transformCoroutineFunctionType types functionType kind
      nonSync).description.returnInnerReferences.length =
        functionType.returnInnerReferences.length := by
  cases functionType
  simp [transformCoroutineFunctionType, CoroutineTypeDescription.returnInnerReferences,
    returnInnerReferences]

theorem remembersReferences
    (hnmd : ParamsAreNumbered types functionType) (hfst : FirstTagsOnly functionType) :
    RemembersReferences types functionType
      (transformCoroutineFunctionType types functionType kind nonSync) := by
  have hret := (h.holdsTagsOf_iff hnmd _ _).2 h.mem_returnReferences_iff
  have hin : ∀ (i : Nat) (outs refs : ReturnReferences),
      (transformCoroutineFunctionType types functionType kind
        nonSync).description.returnInnerReferences[i]? = some outs →
      functionType.returnInnerReferences[i]? = some refs →
      (transformCoroutineFunctionType types functionType kind nonSync).HoldsTagsOf outs refs := by
    intro i outs refs houts hrefs
    rw [h.holdsTagsOf_inner_iff hnmd hrefs houts]
    exact hfst refs (mem_of_getElem? hrefs)
  constructor
  case tagCount =>
    rw [h.references_eq, h.innerReferences_length, tagReferences, length_map]
  case referenceOfTag =>
    intro t ht
    rw [h.references_eq, tagReferences, length_map] at ht
    have hget := getElem?_eq_getElem ht
    refine ⟨_, _, mem_references_iff.1 (mem_of_getElem? hget), ?_⟩
    exact (h.correspondsTo_iff hnmd t _ _).2 hget
  case tagOfReference =>
    intro p k href
    obtain ⟨t, hget⟩ := mem_iff_getElem?.1 (mem_references_iff.2 href)
    refine ⟨t, (h.correspondsTo_iff hnmd t p k).2 hget, ?_⟩
    intro t' ht'
    exact position_unique ((h.correspondsTo_iff hnmd t' p k).1 ht') hget
  case returnReferences => exact hret
  case returnInnerReferences_length => exact returnInnerReferences_length functionType
  case returnInnerReferences => exact hin
  case paramNode =>
    intro V _ ns p k t n hnode ht
    obtain ⟨t', hget, hfd⟩ := paramNode_eq ns hnode
    have heq := position_unique ((h.correspondsTo_iff hnmd t p k).1 ht) hget
    subst heq
    exact ⟨t.toUInt8, hfd, h.toNat_tag hget⟩
  case returnReferenceIsAllowed =>
    intro V _ ns p k n hnode
    obtain ⟨t, hget, hfd⟩ := paramNode_eq ns hnode
    rw [asyncReturnReferenceIsAllowed, hfd]
    exact decide_eq_true_iff.trans (h.mem_iff_of_holdsTagsOf hnmd hret hget)
  case returnInnerReferenceIsAllowed =>
    intro V _ ns p k n i refs hnode hrefs
    obtain ⟨t, hget, hfd⟩ := paramNode_eq ns hnode
    have hlt : i < (transformCoroutineFunctionType types functionType kind
        nonSync).description.returnInnerReferences.length := by
      rw [returnInnerReferences_length]
      exact (List.getElem?_eq_some_iff.1 hrefs).1
    have houts := getElem?_eq_getElem hlt
    rw [asyncReturnInnerReferenceIsAllowed, hfd, houts]
    exact decide_eq_true_iff.trans (h.mem_iff_of_holdsTagsOf hnmd (hin i _ refs houts hrefs) hget)

end AcceptedCoroutine

/-- A coroutine type remembers which parameter each reference came from exactly when the
numbers of the parameters with references fit their type and inner references of the result
come from first tags only. -/
theorem transformCoroutineFunctionType_remembers_iff {types : BuiltTypes}
    {functionType : FunctionType} {kind : CoroutineKind} {nonSync : Bool}
    (h : AcceptedCoroutine types functionType kind nonSync) :
    RemembersReferences types functionType
        (transformCoroutineFunctionType types functionType kind nonSync) ↔
      ParamsAreNumbered types functionType ∧ FirstTagsOnly functionType := by
  constructor
  · intro hremembers
    have hnumbered : ParamsAreNumbered types functionType := by
      intro p k hreference
      obtain ⟨t, ⟨reference, -, hp, -⟩, -⟩ := hremembers.tagOfReference p k hreference
      rw [← hp]
      exact reference.first.toNat_lt
    refine ⟨hnumbered, ?_⟩
    intro references hmem
    obtain ⟨i, hreferences⟩ := mem_iff_getElem?.1 hmem
    have hlt : i < (transformCoroutineFunctionType types functionType kind
        nonSync).description.returnInnerReferences.length := by
      rw [AcceptedCoroutine.returnInnerReferences_length]
      exact (List.getElem?_eq_some_iff.1 hreferences).1
    have houts := getElem?_eq_getElem hlt
    exact (h.holdsTagsOf_inner_iff hnumbered hreferences houts).1
      (hremembers.returnInnerReferences i _ references houts hreferences)
  · intro ⟨hnumbered, hfirst⟩
    exact h.remembersReferences hnumbered hfirst

def twoTagTypes : BuiltTypes where
  innerReferences _ := [⟨.imut, .none_⟩, ⟨.imut, .none_⟩]
  ensureTypeComplete _ := true
  getTypeNonSync _ := false

def twoTagFunction (returnInnerReferences : List ReturnReferences) : FunctionType :=
  .mk [.mk (.classType (.declared .root [])) .value] (.mk (.classType (.declared .root [])) .value)
    false .default_ [] returnInnerReferences []

theorem twoTagFunction_accepted (tag : UInt8) (htag : tag = 0 ∨ tag = 1) :
    AcceptedCoroutine twoTagTypes (twoTagFunction [[⟨0, 0⟩], [⟨0, tag⟩]]) .asyncFunc false := by
  constructor
  case complete =>
    intro param _
    rfl
  case checked => rcases htag with rfl | rfl <;> rfl
  case transformed => rcases htag with rfl | rfl <;> rfl
  case inRange =>
    intro reference hmem
    cases hmem
  case innerInRange =>
    intro references hmem reference href
    have hz : reference.first = 0 := by
      simp only [twoTagFunction, returnInnerReferences, mem_cons,
        not_mem_nil, or_false] at hmem
      rcases hmem with rfl | rfl <;> rw [mem_singleton.1 href]
    rw [hz]
    exact Nat.one_pos
  case fewTags => exact (by decide : 2 < 255)

theorem twoTagFunction_numbered (refs : List ReturnReferences) :
    ParamsAreNumbered twoTagTypes (twoTagFunction refs) := by
  intro p k ⟨param, hp, _⟩
  have hlt : p < 1 := (List.getElem?_eq_some_iff.1 hp).1
  omega

/-- The nodes of the argument and of its tags. -/
def twoTagNodes : ArgsNodes twoTagTypes (twoTagFunction [[⟨0, 0⟩], [⟨0, 0⟩]]).params Nat where
  args := [(.mk (.classType (.declared .root [])) .value, 0, [1, 2])]
  params_eq := rfl
  tagNodes_length arg hmem := by rw [mem_singleton.1 hmem]; rfl
  nodup := by decide

theorem transformCoroutineFunctionType_remembers_twoTags :
    RemembersReferences twoTagTypes (twoTagFunction [[⟨0, 0⟩], [⟨0, 0⟩]])
        (transformCoroutineFunctionType twoTagTypes (twoTagFunction [[⟨0, 0⟩], [⟨0, 0⟩]])
          .asyncFunc false) ∧
      ∃ tag : UInt8, getCoroutineInnerReferenceForParamNode twoTagTypes twoTagNodes.args 2 =
        some ⟨0, tag⟩ ∧ tag.toNat = 1 := by
  have hfirst : FirstTagsOnly (twoTagFunction [[⟨0, 0⟩], [⟨0, 0⟩]]) := by
    intro references hmem reference hreference
    simp only [twoTagFunction, returnInnerReferences, mem_cons,
      not_mem_nil, or_false, or_self] at hmem
    rw [hmem, mem_singleton] at hreference
    exact .inl (by rw [hreference])
  have hremembers := (transformCoroutineFunctionType_remembers_iff
    (twoTagFunction_accepted 0 (.inl rfl))).2 ⟨twoTagFunction_numbered _, hfirst⟩
  exact ⟨hremembers, hremembers.paramNode Nat twoTagNodes 0 1 1 2 ⟨_, rfl, rfl⟩ ⟨_, rfl, rfl, rfl⟩⟩

/-- A function that returns its argument, with the second tag of the result from the second
tag of the parameter: the coroutine type takes it from the first tag. -/
theorem transformCoroutineFunctionType_forgets_secondTag :
    AcceptedCoroutine twoTagTypes (twoTagFunction [[⟨0, 0⟩], [⟨0, 1⟩]]) .asyncFunc false ∧
      (transformCoroutineFunctionType twoTagTypes (twoTagFunction [[⟨0, 0⟩], [⟨0, 1⟩]])
        .asyncFunc false).description.returnInnerReferences = [[⟨0, 0⟩], [⟨0, 0⟩]] ∧
      ¬RemembersReferences twoTagTypes (twoTagFunction [[⟨0, 0⟩], [⟨0, 1⟩]])
        (transformCoroutineFunctionType twoTagTypes (twoTagFunction [[⟨0, 0⟩], [⟨0, 1⟩]])
          .asyncFunc false) := by
  have haccepted := twoTagFunction_accepted 1 (.inr rfl)
  refine ⟨haccepted, rfl, ?_⟩
  intro hremembers
  have hholds := hremembers.returnInnerReferences 1 [⟨0, 0⟩] [⟨0, 1⟩] rfl rfl
  have hfirst := (haccepted.holdsTagsOf_inner_iff (i := 1) (twoTagFunction_numbered _) rfl rfl).1 hholds
  exact absurd hfirst (by decide)

end USprache.CodeBuilder
