import USprache.CodeBuilder.CoroutineFunctionType

/-!
# Which parameter a tag of a coroutine type comes from

The references of the parameters are listed in one order: for each parameter either itself
or its reference tags.  The tags of the coroutine type are the positions in that list, and
each of the three places that number them agrees with it, but for the translation of
`return_inner_references`, which takes the first tag of a parameter for any of its tags.
-/

namespace USprache.CodeBuilder

open List

section References

variable (types : BuiltTypes)

def IsParamReference (params : List FunctionParam) (p k : Nat) : Prop :=
  ∃ param, params[p]? = some param ∧
    if param.valueType = .value then k < types.referenceTagCount param.type
    else k = paramReferenceNumber.toNat

def paramReferences (paramIndex : Nat) (param : FunctionParam) : List (Nat × Nat) :=
  if param.valueType = .value then
    (List.range (types.referenceTagCount param.type)).map fun k => (paramIndex, k)
  else [(paramIndex, paramReferenceNumber.toNat)]

def referencesFrom : Nat → List FunctionParam → List (Nat × Nat)
  | _, [] => []
  | paramIndex, param :: params =>
    paramReferences types paramIndex param ++ referencesFrom (paramIndex + 1) params

/-- The position of the first reference of the parameter `p`, or of the first one behind it. -/
def firstTag : List FunctionParam → Nat → Nat
  | [], _ => 0
  | _ :: _, 0 => 0
  | param :: params, p + 1 => (paramReferences types 0 param).length + firstTag params p

theorem length_paramReferences (i j : Nat) (param : FunctionParam) :
    (paramReferences types i param).length = (paramReferences types j param).length := by
  unfold paramReferences
  split <;> simp

theorem mem_paramReferences (i : Nat) (param : FunctionParam) (p k : Nat) :
    (p, k) ∈ paramReferences types i param ↔
      p = i ∧ if param.valueType = .value then k < types.referenceTagCount param.type
        else k = paramReferenceNumber.toNat := by
  unfold paramReferences
  split
  · simp only [mem_map, mem_range, Prod.mk.injEq]
    constructor
    · intro ⟨k', hlt, hp, hk⟩
      exact ⟨hp.symm, hk ▸ hlt⟩
    · intro ⟨hp, hlt⟩
      exact ⟨k, hlt, hp.symm, rfl⟩
  · simp

theorem le_of_mem_referencesFrom {params : List FunctionParam} :
    ∀ {i p k : Nat}, (p, k) ∈ referencesFrom types i params → i ≤ p := by
  induction params with
  | nil =>
    intro i p k h
    cases h
  | cons param params ih =>
    intro i p k h
    rcases mem_append.1 h with h | h
    · have hp := ((mem_paramReferences types i param p k).1 h).1
      omega
    · have hle := ih h
      omega

theorem mem_referencesFrom (params : List FunctionParam) :
    ∀ i p k, (i + p, k) ∈ referencesFrom types i params ↔ IsParamReference types params p k := by
  induction params with
  | nil =>
    intro i p k
    constructor
    · intro h
      cases h
    · intro ⟨param, hp, _⟩
      simp at hp
  | cons param params ih =>
    intro i p k
    rw [referencesFrom, mem_append, mem_paramReferences]
    cases p with
    | zero =>
      have hnot : (i, k) ∉ referencesFrom types (i + 1) params := by
        intro h
        have hle := le_of_mem_referencesFrom types h
        omega
      simp [IsParamReference, hnot]
    | succ p =>
      have hne : i + (p + 1) ≠ i := by omega
      rw [show i + (p + 1) = i + 1 + p by omega] at hne ⊢
      rw [ih (i + 1) p k]
      simp [IsParamReference, hne]

theorem nodup_paramReferences (i : Nat) (param : FunctionParam) :
    (paramReferences types i param).Nodup := by
  unfold paramReferences
  split
  · apply Nodup.map _ nodup_range
    intro k k' h
    exact congrArg Prod.snd h
  · exact nodup_singleton _

theorem nodup_referencesFrom (params : List FunctionParam) :
    ∀ i, (referencesFrom types i params).Nodup := by
  induction params with
  | nil =>
    intro i
    exact nodup_nil
  | cons param params ih =>
    intro i
    apply Nodup.append (nodup_paramReferences types i param) (ih (i + 1))
    intro ⟨p, k⟩ hfst hrs
    have hp := ((mem_paramReferences types i param p k).1 hfst).1
    have hle := le_of_mem_referencesFrom types hrs
    omega

theorem getElem?_paramReferences_value {param : FunctionParam} (hv : param.valueType = .value)
    {k : Nat} (hk : k < types.referenceTagCount param.type) (i : Nat) :
    (paramReferences types i param)[k]? = some (i, k) := by
  rw [paramReferences, if_pos hv, getElem?_map, getElem?_range hk]
  rfl

theorem getElem?_referencesFrom {params : List FunctionParam} :
    ∀ {p : Nat} {param : FunctionParam} (i k : Nat), params[p]? = some param →
      k < (paramReferences types 0 param).length →
      (referencesFrom types i params)[firstTag types params p + k]? =
        (paramReferences types (i + p) param)[k]? := by
  induction params with
  | nil =>
    intro p param i k hp
    simp at hp
  | cons first params ih =>
    intro p param i k hp hk
    cases p with
    | zero =>
      have hfst : first = param := Option.some.inj hp
      subst hfst
      rw [firstTag, zero_add]
      apply getElem?_append_left
      rw [length_paramReferences types i 0]
      exact hk
    | succ p =>
      rw [referencesFrom, firstTag]
      rw [getElem?_append_right (by rw [length_paramReferences types i 0]; omega)]
      rw [length_paramReferences types i 0, add_assoc, Nat.add_sub_cancel_left]
      rw [ih (i + 1) k (by simpa using hp) hk]
      rw [show i + 1 + p = i + (p + 1) by omega]

end References

section Collected

variable (types : BuiltTypes)

def tagReferences (references : List (Nat × Nat)) : List ReturnReferences :=
  references.map fun r => [⟨r.1.toUInt8, r.2.toUInt8⟩]

theorem collectParam_spec (i : Nat) (param : FunctionParam) (collected : CollectedTags)
    (hcom : types.ensureTypeComplete param.type = true) :
    (collectParam types i param collected).paramToFirstInnerReferenceTag =
        collected.paramToFirstInnerReferenceTag ++ [collected.innerReferences.length] ∧
      (collectParam types i param collected).innerReferences.length =
        collected.innerReferences.length + (paramReferences types 0 param).length ∧
      (collectParam types i param collected).coroutineReturnInnerReferences =
        collected.coroutineReturnInnerReferences ++ tagReferences (paramReferences types i param) ∧
      ∃ errs, (collectParam types i param collected).errors = collected.errors ++ errs ∧
        (errs = [] → param.valueType ≠ .value → types.referenceTagCount param.type = 0) := by
  obtain ⟨type, kind⟩ := param
  rw [FunctionParam.type] at hcom
  cases kind <;>
    simp [collectParam, paramReferences, tagReferences, FunctionParam.type,
      FunctionParam.valueType, hcom]

theorem collectParams_spec {params : List FunctionParam} : ∀ i collected,
    (∀ param ∈ params, types.ensureTypeComplete param.type = true) →
    (∀ p < params.length, (collectParams types i params collected).paramToFirstInnerReferenceTag[
        collected.paramToFirstInnerReferenceTag.length + p]? =
      some (collected.innerReferences.length + firstTag types params p)) ∧
    (∀ n < collected.paramToFirstInnerReferenceTag.length,
      (collectParams types i params collected).paramToFirstInnerReferenceTag[n]? =
        collected.paramToFirstInnerReferenceTag[n]?) ∧
    (collectParams types i params collected).innerReferences.length =
      collected.innerReferences.length + (referencesFrom types i params).length ∧
    (collectParams types i params collected).coroutineReturnInnerReferences =
      collected.coroutineReturnInnerReferences ++ tagReferences (referencesFrom types i params) ∧
    ∃ errs, (collectParams types i params collected).errors = collected.errors ++ errs ∧
      (errs = [] → ∀ param ∈ params, param.valueType ≠ .value →
        types.referenceTagCount param.type = 0) := by
  induction params with
  | nil =>
    intro i collected _
    simp [collectParams, referencesFrom, tagReferences]
  | cons param params ih =>
    intro i collected hcom
    obtain ⟨hfst, hlen, hrefs, errs, herrs, hchk⟩ :=
      collectParam_spec types i param collected (hcom param mem_cons_self)
    obtain ⟨ihfirst, ihkept, ihlength, ihrefs, errs', iherrors, ihcheck⟩ :=
      ih (i + 1) (collectParam types i param collected) (fun q hq => hcom q (mem_cons_of_mem param hq))
    rw [collectParams]
    refine ⟨?_, ?_, ?_, ?_, errs ++ errs', ?_, ?_⟩
    · intro p hp
      cases p with
      | zero =>
        rw [ihkept _ (by rw [hfst]; simp), hfst]
        simp [firstTag]
      | succ p =>
        have hget := ihfirst p (by simpa using hp)
        rw [hfst, hlen, length_append] at hget
        rw [firstTag, ← add_assoc, ← add_assoc, Nat.add_right_comm _ p 1]
        exact hget
    · intro n hn
      rw [ihkept n (by rw [hfst, length_append]; omega), hfst]
      exact getElem?_append_left hn
    · rw [referencesFrom, length_append, length_paramReferences types i 0]
      omega
    · rw [ihrefs, hrefs, append_assoc, referencesFrom, tagReferences, tagReferences,
        tagReferences, map_append]
    · rw [iherrors, herrs, append_assoc]
    · intro hnil q hq hne
      obtain ⟨hnil, hnil'⟩ := append_eq_nil_iff.1 hnil
      rcases mem_cons.1 hq with rfl | hq
      · exact hchk hnil hne
      · exact ihcheck hnil' q hq hne

end Collected

def TransformedCoroutine.CorrespondsTo (result : TransformedCoroutine) (t p k : Nat) : Prop :=
  ∃ reference : ParamReference, result.functionType.returnInnerReferences[t]? = some [reference] ∧
      reference.first.toNat = p ∧ reference.second.toNat = k

def TransformedCoroutine.HoldsTagsOf (result : TransformedCoroutine)
    (outs references : ReturnReferences) : Prop :=
  ∀ out, out ∈ outs ↔ ∃ reference ∈ references, ∃ t,
    result.CorrespondsTo t reference.first.toNat reference.second.toNat ∧
      out.first = 0 ∧ out.second.toNat = t

structure ArgsNodes (types : BuiltTypes) (params : List FunctionParam) (V : Type) where
  args : List (FunctionParam × V × List V)
  params_eq : args.map (fun arg => arg.1) = params
  tagNodes_length : ∀ arg ∈ args, arg.2.2.length = types.referenceTagCount arg.1.type
  nodup : (args.flatMap (fun arg => arg.2.1 :: arg.2.2)).Nodup

def NodeOf {V : Type} (args : List (FunctionParam × V × List V)) (p k : Nat) (node : V) : Prop :=
  ∃ arg, args[p]? = some arg ∧
    if arg.1.valueType = .value then arg.2.2[k]? = some node
    else node = arg.2.1 ∧ k = paramReferenceNumber.toNat

structure AcceptedCoroutine (types : BuiltTypes) (functionType : FunctionType)
    (kind : CoroutineKind) (nonSync : Bool) : Prop where
  complete : ∀ param ∈ functionType.params, types.ensureTypeComplete param.type = true
  checked : performCoroutineFunctionReferenceNotationChecks types functionType = []
  transformed : (transformCoroutineFunctionType types functionType kind nonSync).errors = []
  inRange : ∀ reference ∈ functionType.returnReferences,
    reference.first.toNat < functionType.params.length
  innerInRange : ∀ references ∈ functionType.returnInnerReferences, ∀ reference ∈ references,
    reference.first.toNat < functionType.params.length
  fewTags : (transformCoroutineFunctionType types functionType kind
    nonSync).description.innerReferences.length < 255

structure RemembersReferences (types : BuiltTypes) (functionType : FunctionType)
    (result : TransformedCoroutine) : Prop where
  tagCount : result.functionType.returnInnerReferences.length =
    result.description.innerReferences.length
  referenceOfTag : ∀ t < result.functionType.returnInnerReferences.length,
    ∃ p k, IsParamReference types functionType.params p k ∧ result.CorrespondsTo t p k
  tagOfReference : ∀ p k, IsParamReference types functionType.params p k →
    ∃! t, result.CorrespondsTo t p k
  returnReferences :
    result.HoldsTagsOf result.description.returnReferences functionType.returnReferences
  returnInnerReferences_length : result.description.returnInnerReferences.length =
    functionType.returnInnerReferences.length
  returnInnerReferences : ∀ (i : Nat) (outs references : ReturnReferences),
    result.description.returnInnerReferences[i]? = some outs →
    functionType.returnInnerReferences[i]? = some references →
    result.HoldsTagsOf outs references
  paramNode : ∀ (V : Type) [DecidableEq V] (nodes : ArgsNodes types functionType.params V)
    (p k t : Nat) (node : V), NodeOf nodes.args p k node → result.CorrespondsTo t p k →
    ∃ tag : UInt8, getCoroutineInnerReferenceForParamNode types nodes.args node = some ⟨0, tag⟩ ∧
      tag.toNat = t
  returnReferenceIsAllowed : ∀ (V : Type) [DecidableEq V]
    (nodes : ArgsNodes types functionType.params V) (p k : Nat) (node : V),
    NodeOf nodes.args p k node →
    (asyncReturnReferenceIsAllowed types nodes.args result.description node = true ↔
      ∃ reference ∈ functionType.returnReferences,
        reference.first.toNat = p ∧ reference.second.toNat = k)
  returnInnerReferenceIsAllowed : ∀ (V : Type) [DecidableEq V]
    (nodes : ArgsNodes types functionType.params V) (p k : Nat) (node : V) (i : Nat)
    (references : ReturnReferences), NodeOf nodes.args p k node →
    functionType.returnInnerReferences[i]? = some references →
    (asyncReturnInnerReferenceIsAllowed types nodes.args result.description i node = true ↔
      ∃ reference ∈ references, reference.first.toNat = p ∧ reference.second.toNat = k)

def ParamsAreNumbered (types : BuiltTypes) (functionType : FunctionType) : Prop :=
  ∀ p k, IsParamReference types functionType.params p k → p < 256

/-- Inner references of the result come from reference parameters and from the first tags of
value parameters only. -/
def FirstTagsOnly (functionType : FunctionType) : Prop :=
  ∀ references ∈ functionType.returnInnerReferences, ∀ reference ∈ references,
    reference.second = 0 ∨ reference.second = paramReferenceNumber

section Positions

variable {types : BuiltTypes} {params : List FunctionParam} {p : Nat}

theorem getElem?_of_value {k : Nat} {param : FunctionParam} (hp : params[p]? = some param)
    (hv : param.valueType = .value) (hk : k < types.referenceTagCount param.type) :
    (referencesFrom types 0 params)[firstTag types params p + k]? = some (p, k) := by
  have hlt : k < (paramReferences types 0 param).length := by
    rw [paramReferences, if_pos hv, length_map, length_range]
    exact hk
  rw [getElem?_referencesFrom types 0 k hp hlt, zero_add]
  exact getElem?_paramReferences_value types hv hk p

theorem getElem?_of_reference {param : FunctionParam} (hp : params[p]? = some param)
    (hv : param.valueType ≠ .value) :
    (referencesFrom types 0 params)[firstTag types params p]? =
      some (p, paramReferenceNumber.toNat) := by
  have hlt : 0 < (paramReferences types 0 param).length := by
    rw [paramReferences, if_neg hv]
    exact Nat.one_pos
  have hget := getElem?_referencesFrom types 0 0 hp hlt
  rw [zero_add, paramReferences, if_neg hv] at hget
  exact hget

theorem mem_references_iff {k : Nat} :
    (p, k) ∈ referencesFrom types 0 params ↔ IsParamReference types params p k := by
  have h := mem_referencesFrom types params 0 p k
  rw [zero_add] at h
  exact h

theorem tag_lt_of_getElem? {t k : Nat} (hfew : (referencesFrom types 0 params).length < 255)
    (h : (referencesFrom types 0 params)[t]? = some (p, k)) : k < 256 := by
  obtain ⟨param, hp, hk⟩ := mem_references_iff.1 (mem_of_getElem? h)
  split at hk
  next hv =>
    have hget := getElem?_of_value hp hv hk
    have hlt := (List.getElem?_eq_some_iff.1 hget).1
    omega
  next => exact hk ▸ paramReferenceNumber.toNat_lt

theorem position_unique {t t' : Nat} {r : Nat × Nat}
    (h : (referencesFrom types 0 params)[t]? = some r)
    (h' : (referencesFrom types 0 params)[t']? = some r) : t = t' := by
  obtain ⟨hlt, hget⟩ := List.getElem?_eq_some_iff.1 h
  obtain ⟨hlt', hget'⟩ := List.getElem?_eq_some_iff.1 h'
  exact (Nodup.getElem_inj_iff (nodup_referencesFrom types params 0)).1 (hget.trans hget'.symm)

end Positions

end USprache.CodeBuilder
