import USprache.CodeBuilder.CallLinks

/-!
# The borrow effect of a call

A call has the borrow effect of its type, and what was locked for the call is released, unless
a mutable reference argument needs a conversion, an argument for a value parameter is rejected, a
pollution names an inner reference of a rejected argument, the evaluation of the call fails, or a
walk does not end.
-/

namespace USprache.CodeBuilder.WithArgs.CallReferences.LinkedCall

open CallArguments ReferencesGraph List

variable {program : CallArguments.Program} {V : Type} [DecidableEq V]
  (linked : LinkedCall program V)

def Names (reference : ParamReference) (v : V) : Prop :=
  ∃ param, linked.params[reference.first.toNat]? = some param ∧
    if reference.second = paramReferenceNumber then v = linked.node (.arg reference.first.toNat)
    else reference.second.toNat < program.referenceTagCount param.type ∧
      v = linked.node (.argInner reference.first.toNat reference.second.toNat)

def NamesSecondOrder (reference : ParamReference) (v : V) : Prop :=
  reference.second ≠ paramReferenceNumber ∧
    ∃ param, linked.params[reference.first.toNat]? = some param ∧
      reference.second.toNat < program.referenceTagCount param.type ∧
      linked.locksSecondOrder param reference.second.toNat = true ∧
      v = linked.node (.secondOrder reference.first.toNat reference.second.toNat)

def Required (G : ReferencesGraph V) (l : Link V) : Prop :=
  ((linked.call.functionType.returned.valueType ≠ .value ∧ ∃ reference ∈ linked.returnReferences,
        linked.NamesSecondOrder reference l.src ∧
            l.dst ∈ linked.vars.innerReferenceNodes (linked.node .result) ∨
          linked.Names reference l.src ∧ l.dst = linked.node .result) ∨
    ∃ tag ∈ (linked.vars.innerReferenceNodes (linked.node .result)).zip
        linked.returnInnerReferences,
      ∃ reference ∈ tag.2, linked.Names reference l.src ∧ l.dst = tag.1) ∨
  ∃ pollution ∈ linked.referencesPollution, linked.isEffective pollution = true ∧
    linked.Names pollution.src l.src ∧
    ∃ dst, linked.Names pollution.dst dst ∧ Accessible linked.vars G dst l.dst

/-- Each lock in the graph is moved, and nothing is borrowed through it. -/
def LocksReleased (G : ReferencesGraph V) : Prop :=
  ∀ n, n.isLock = true → linked.node n ∈ G.nodes → linked.IsReleased G (linked.node n)

/-- The call is built without a null pointer read, it releases its locks, and without a
rejected argument it makes the links of the type. -/
def HasBorrowEffect : Prop := ∃ fuel finished, linked.doCallFunction fuel = some finished ∧
    linked.LocksReleased finished.final ∧
    ((∀ i < linked.params.length, linked.isBuilt i = true) →
      Adds (linked.Required finished.locked.graph) finished.locked.reported finished.links)

/-- What is asked of a call and of the graph before its links are made. -/
structure LinksSafely (before : ReferencesGraph V) : Prop where
  valueArgs : ∀ i param, linked.params[i]? = some param → param.valueType = .value →
    linked.isBuilt i = true
  /-- No pollution names an inner reference of a rejected argument. -/
  pollution : ∀ pollution ∈ linked.referencesPollution, linked.isEffective pollution = true →
    (pollution.src.second ≠ paramReferenceNumber →
      linked.isBuilt pollution.src.first.toNat = true) ∧
    (pollution.dst.second ≠ paramReferenceNumber → linked.isBuilt pollution.dst.first.toNat = true)
  /-- The evaluation of a call with arguments does not fail. -/
  evaluation : linked.evaluationFails = true → linked.params = []
  /-- No cycle of references leads to the destination of a pollution. -/
  walks : ∀ pollution ∈ linked.referencesPollution, linked.isEffective pollution = true →
    linked.isBuilt pollution.src.first.toNat = true →
    linked.isBuilt pollution.dst.first.toNat = true →
    ∀ src dst, linked.Names pollution.src src → linked.Names pollution.dst dst →
      Walkable linked.vars before dst

/-! ## Named nodes -/

variable {param : Param} {i : Nat} {v : V} {G : ReferencesGraph V}

theorem names_iff_of_lt {ref : ParamReference}
    (hp : linked.params[ref.first.toNat]? = some param) (v : V) :
    linked.Names ref v ↔
      if ref.second = paramReferenceNumber then
        v = linked.node (.arg ref.first.toNat)
      else
        (linked.vars.innerReferenceNodes
          (linked.node (.arg ref.first.toNat)))[ref.second.toNat]? = some v := by
  unfold Names
  rw [hp]
  by_cases hsnd : ref.second = paramReferenceNumber
  · simp only [if_pos hsnd]
    constructor
    · rintro ⟨_, -, h⟩
      exact h
    · exact fun h => ⟨param, rfl, h⟩
  · simp only [if_neg hsnd]
    rw [linked.inner_arg _ param hp, getElem?_map]
    by_cases hlt : ref.second.toNat < program.referenceTagCount param.type
    · rw [getElem?_range hlt]
      constructor
      · rintro ⟨_, -, -, rfl⟩
        rfl
      · exact fun h => ⟨param, rfl, hlt, (Option.some.inj h).symm⟩
    · rw [getElem?_eq_none (by rw [length_range]; omega)]
      constructor
      · rintro ⟨_, hsm, hlt', -⟩
        cases hsm
        exact absurd hlt' hlt
      · nofun

theorem param_of_isBuilt (h : linked.isBuilt i = true) : ∃ param, linked.params[i]? = some param :=
  ⟨_, getElem?_eq_getElem (linked.lt_of_isBuilt h)⟩

variable {linked} {locked : ArgsNodes V} (hlocked : linked.Locked locked)

include hlocked

theorem referencedNode_eq_some (hall : ∀ i < linked.params.length, linked.isBuilt i = true)
    (ref : ParamReference) (v : V) :
    linked.referencedNode locked ref = some v ↔ linked.Names ref v := by
  unfold referencedNode
  rw [hlocked.argsNodes]
  by_cases hbt : linked.isBuilt ref.first.toNat = true
  · obtain ⟨param, hp⟩ := linked.param_of_isBuilt hbt
    rw [linked.names_iff_of_lt hp, if_pos hbt]
    by_cases hsnd : ref.second = paramReferenceNumber
    · simp only [if_pos hsnd, Option.some.injEq]
      exact eq_comm
    · simp only [if_neg hsnd]
  · rw [if_neg hbt]
    constructor
    · nofun
    · rintro ⟨param, hp, -⟩
      exact absurd (hall _ (List.getElem?_eq_some_iff.1 hp).1) hbt

/-- The node of a pollution is read if the argument is built or is meant itself. -/
theorem pollutionNode_isSome (ref : ParamReference) :
    (linked.pollutionNode locked ref).isSome = true ↔
      (ref.second ≠ paramReferenceNumber → linked.isBuilt ref.first.toNat = true) := by
  unfold pollutionNode
  rw [hlocked.argsNodes]
  by_cases hsnd : ref.second = paramReferenceNumber
  · rw [if_pos hsnd]
    exact ⟨fun _ h => absurd hsnd h, fun _ => rfl⟩
  · rw [if_neg hsnd]
    by_cases hbt : linked.isBuilt ref.first.toNat = true
    · rw [if_pos hbt]
      exact ⟨fun _ _ => hbt, fun _ => rfl⟩
    · rw [if_neg hbt]
      exact ⟨nofun, fun h => absurd (h hsnd) hbt⟩

theorem pollutionNode_eq_some (ref : ParamReference) (v : V) :
    linked.pollutionNode locked ref = some (some v) ↔
      linked.isBuilt ref.first.toNat = true ∧ linked.Names ref v := by
  unfold pollutionNode
  rw [hlocked.argsNodes]
  by_cases hbt : linked.isBuilt ref.first.toNat = true
  · obtain ⟨param, hp⟩ := linked.param_of_isBuilt hbt
    rw [linked.names_iff_of_lt hp, if_pos hbt]
    by_cases hsnd : ref.second = paramReferenceNumber
    · simp only [if_pos hsnd, Option.some.injEq, hbt, true_and]
      exact eq_comm
    · simp only [if_neg hsnd, Option.map_some, Option.some.injEq, hbt, true_and]
  · constructor
    · intro h
      split at h
      · cases h
      · cases h
    · exact fun h => absurd h.1 hbt

theorem secondOrderLink_iff (hall : ∀ i < linked.params.length, linked.isBuilt i = true)
    (ref : ParamReference) (l : Link V) :
    linked.SecondOrderLink locked ref l ↔ linked.NamesSecondOrder ref l.src ∧
        l.dst ∈ linked.vars.innerReferenceNodes (linked.node .result) := by
  unfold SecondOrderLink NamesSecondOrder
  rw [hlocked.secondOrder, and_assoc]
  refine and_congr_right fun _ => and_congr_left fun _ => ?_
  have hset : linked.passSet ref.first.toNat
      (.secondOrder ref.first.toNat ref.second.toNat) = true ↔
      ∃ param, linked.params[ref.first.toNat]? = some param ∧
        ref.second.toNat < program.referenceTagCount param.type ∧
        linked.locksSecondOrder param ref.second.toNat = true := by
    unfold passSet lockNodes secondOrderNodes
    cases hp : linked.params[ref.first.toNat]? with
    | none => simp
    | some param =>
      have hbt := hall _ (List.getElem?_eq_some_iff.1 hp).1
      have hnode : (CallNode.secondOrder ref.first.toNat ref.second.toNat ==
          .arg ref.first.toNat) = false := by simp
      simp only [hbt, hnode, Bool.false_or, any_eq_true, mem_range,
        Bool.and_eq_true, beq_iff_eq, CallNode.secondOrder.injEq, true_and]
      constructor
      · rintro ⟨tag, hlt, rfl, hloc⟩
        exact ⟨param, rfl, hlt, hloc⟩
      · rintro ⟨_, hsm, hlt, hloc⟩
        cases hsm
        exact ⟨_, hlt, rfl, hloc⟩
  by_cases h : linked.passSet ref.first.toNat (.secondOrder ref.first.toNat ref.second.toNat) = true
  · rw [if_pos h]
    obtain ⟨param, hp, hlt, hloc⟩ := hset.1 h
    constructor
    · exact fun hsrc => ⟨param, hp, hlt, hloc, (Option.some.inj hsrc).symm⟩
    · rintro ⟨_, -, -, -, hsrc⟩
      rw [hsrc]
  · rw [if_neg h]
    constructor
    · nofun
    · rintro ⟨param, hp, hlt, hloc, -⟩
      exact absurd (hset.2 ⟨param, hp, hlt, hloc⟩) h

/-! ## Walks -/

omit hlocked in
theorem mem_inner_result (h : v ∈ linked.vars.innerReferenceNodes (linked.node .result)) :
    ∃ tag, v = linked.node (.resultInner tag) := by
  rw [linked.inner_result] at h
  obtain ⟨tag, -, rfl⟩ := mem_map.1 h
  exact ⟨tag, rfl⟩

theorem sameWalks_linkResult : SameWalks linked.vars
    (fun v => ∀ n, n.isResult = true → v ≠ linked.node n) locked.graph
    (linked.linkResult locked).1 where
  inputs x y hy _ := by
    have hadds := linked.linkResult_adds locked
    constructor
    · intro hl
      refine (hadds.only _ hl).resolve_right ?_
      have hres : ¬ ∃ tag, y = linked.node (.resultInner tag) := by
        rintro ⟨tag, heq⟩
        exact hy _ rfl heq
      rintro (⟨-, ref, -, ⟨-, -, hdst⟩ | ⟨-, hdst⟩⟩ | ⟨tag, htag, ref, -, -, hdst⟩)
      · exact hres (mem_inner_result hdst)
      · exact hy .result rfl hdst
      · have hdst : y = tag.1 := hdst
        exact hres (mem_inner_result (hdst ▸ (of_mem_zip htag).1))
    · exact hadds.kept _
  closed l hl n hn := hlocked.unused n hn l hl

omit hlocked in
theorem Names.ne_result {ref : ParamReference} (h : linked.Names ref v)
    (n : CallNode) (hn : n.isResult = true) : v ≠ linked.node n := by
  obtain ⟨param, -, h⟩ := h
  rintro rfl
  split at h
  · rw [linked.node_injective _ _ h] at hn
    cases hn
  · rw [linked.node_injective _ _ h.2] at hn
    cases hn

/-- A pollution is made if it names no inner reference of a rejected argument and its walk
ends. -/
theorem pollutionReturns_iff (pollution : ReferencePollution) :
    linked.PollutionReturns locked (linked.linkResult locked).1 pollution ↔
      (linked.isEffective pollution = true → (pollution.src.second ≠ paramReferenceNumber →
          linked.isBuilt pollution.src.first.toNat = true) ∧
        (pollution.dst.second ≠ paramReferenceNumber →
          linked.isBuilt pollution.dst.first.toNat = true)) ∧
      (linked.isEffective pollution = true → linked.isBuilt pollution.src.first.toNat = true →
        linked.isBuilt pollution.dst.first.toNat = true →
        ∀ src dst, linked.Names pollution.src src → linked.Names pollution.dst dst →
          Walkable linked.vars locked.graph dst) := by
  constructor
  · intro h
    constructor
    · intro heff
      obtain ⟨srcN, dstN, hsrcNd, hdstNd, -⟩ := h heff
      exact ⟨(pollutionNode_isSome hlocked _).1 (by rw [hsrcNd]; rfl),
        (pollutionNode_isSome hlocked _).1 (by rw [hdstNd]; rfl)⟩
    · intro heff hsrc hdst src dst hnSrc hnDst
      obtain ⟨srcN, dstN, hsrcNd, hdstNd, hwk⟩ := h heff
      have hsrcNd' := (pollutionNode_eq_some hlocked _ src).2 ⟨hsrc, hnSrc⟩
      have hdstNd' := (pollutionNode_eq_some hlocked _ dst).2 ⟨hdst, hnDst⟩
      rw [hsrcNd] at hsrcNd'
      rw [hdstNd] at hdstNd'
      exact ((sameWalks_linkResult hlocked).walkable_iff hnDst.ne_result).2
        (hwk src dst (Option.some.inj hsrcNd') (Option.some.inj hdstNd'))
  · rintro ⟨hbt, hwal⟩ heff
    obtain ⟨hsrc, hdst⟩ := hbt heff
    obtain ⟨srcN, hsrcNd⟩ := Option.isSome_iff_exists.1 ((pollutionNode_isSome hlocked _).2 hsrc)
    obtain ⟨dstN, hdstNd⟩ := Option.isSome_iff_exists.1 ((pollutionNode_isSome hlocked _).2 hdst)
    refine ⟨srcN, dstN, hsrcNd, hdstNd, ?_⟩
    rintro src dst rfl rfl
    obtain ⟨hsrcBt, hnSrc⟩ := (pollutionNode_eq_some hlocked _ src).1 hsrcNd
    obtain ⟨hdstBt, hnDst⟩ := (pollutionNode_eq_some hlocked _ dst).1 hdstNd
    exact ((sameWalks_linkResult hlocked).walkable_iff hnDst.ne_result).1
      (hwal heff hsrcBt hdstBt src dst hnSrc hnDst)

theorem required_iff (hall : ∀ i < linked.params.length, linked.isBuilt i = true) (l : Link V) :
    ((linked.ReturnLink locked l ∨ linked.ReturnInnerLink locked l) ∨
      ∃ pollution ∈ linked.referencesPollution,
        linked.PollutionLink locked (linked.linkResult locked).1 pollution l) ↔
      linked.Required locked.graph l := by
  unfold ReturnLink ReturnInnerLink PollutionLink Required
  simp only [referencedNode_eq_some hlocked hall, secondOrderLink_iff hlocked hall]
  refine or_congr_right (exists_congr fun pollution => and_congr_right fun _ => ?_)
  refine and_congr_right fun heff => ?_
  have hbt : ∀ ref v, linked.pollutionNode locked ref = some (some v) ↔ linked.Names ref v := by
    intro ref v
    rw [pollutionNode_eq_some hlocked]
    constructor
    · exact And.right
    · rintro ⟨param, hp, hnode⟩
      exact ⟨hall _ (List.getElem?_eq_some_iff.1 hp).1, param, hp, hnode⟩
  rw [hbt]
  refine and_congr_right fun _ => exists_congr fun dst => ?_
  rw [hbt]
  exact and_congr_right fun hdst =>
    ((sameWalks_linkResult hlocked).accessible_iff hdst.ne_result).symm

omit hlocked in
theorem not_moved_of_lookup (h : G.nodes.lookup v = some {}) : v ∈ G.nodes ∧ ¬ G.IsMoved v := by
  constructor
  · rw [← AList.lookup_isSome, h]
    rfl
  · unfold IsMoved
    rw [h]
    nofun

theorem lookup_moveAll_of_rejected
    (hG : G.nodes = locked.graph.nodes) (hbt : linked.isBuilt i = false) :
    (linked.moveAll locked G).nodes.lookup (linked.node (.arg i)) =
      if linked.entersGraph i then some {} else none := by
  rw [(moveAll_spec hlocked G).2.2.1 i hbt, hG, hlocked.argState]

theorem locksReleased_moveAll (hG : G.nodes = locked.graph.nodes)
    (hv : ∀ i param, linked.params[i]? = some param → param.valueType = .value →
      linked.isBuilt i = true) : linked.LocksReleased (linked.moveAll locked G) := by
  obtain ⟨hargs, hsnd, -, hsndS⟩ := moveAll_spec hlocked G
  intro n hn hmem
  rw [← AList.lookup_isSome] at hmem
  cases n with
  | arg i =>
    cases hbt : linked.isBuilt i with
    | true => exact hargs i hbt
    | false =>
      have hent : linked.entersGraph i = false := by
        unfold entersGraph
        rw [hbt]
        cases hp : linked.params[i]? with
        | none => rfl
        | some param =>
          by_contra h
          have hvTy : param.valueType = .value := by simpa using h
          rw [hv i param hp hvTy] at hbt
          cases hbt
      rw [lookup_moveAll_of_rejected hlocked hG hbt, hent] at hmem
      cases hmem
  | secondOrder i tag =>
    cases hset : linked.passSet i (.secondOrder i tag) with
    | true => exact hsnd i tag hset
    | false =>
      rw [hsndS i tag hset, hG, hlocked.secondOrderState, hset] at hmem
      cases hmem
  | argInner i tag => cases hn
  | result => cases hn
  | resultInner tag => cases hn

section

omit hlocked

theorem isEvaluated_of_fails (h : linked.evaluationFails = true) :
    linked.call.isEvaluated = true :=
  (Bool.and_eq_true_iff.1 h).1

theorem getElem?_builtArgs {expr : Argument program}
    (hp : linked.params[i]? = some param) (hexpr : linked.exprs[i]? = some expr) :
    linked.call.builtArgs[i]? = some (program.buildArg param expr.variable_) := by
  have hp : linked.call.functionType.params[i]? = some param := hp
  have hexpr : linked.call.exprs[i]? = some expr := hexpr
  rw [Call.builtArgs, Call.pairs, getElem?_map, zip, getElem?_zipWith, hp, hexpr]
  rfl

theorem buildReferenceArg_isSome {expr : Variable}
    (h : (program.buildReferenceArg param expr).constant.isSome = true) :
    (program.buildReferenceArg param expr).llvmValue.isSome = true := by
  unfold CallArguments.Program.buildReferenceArg at h ⊢
  by_cases hpsb : program.isPassable expr param = true
  · simp only [hpsb, Bool.not_true, Bool.false_eq_true, if_false] at h ⊢
    split
    · rename_i hmut
      simp only [hmut, if_true] at h
      split at h
      · cases h
      · cases h
    · split
      · next hconv =>
        obtain ⟨ref, href⟩ := CallArguments.Program.createReferenceCast_some expr.llvmValue hconv
        rw [href]
        rfl
      · rfl
  · rw [Bool.not_eq_true] at hpsb
    simp only [hpsb] at h
    cases h

theorem entersGraph_of_fails (h : linked.evaluationFails = true)
    (hi : i < linked.params.length) : linked.entersGraph i = true := by
  have hev := isEvaluated_of_fails h
  unfold CallArguments.Call.isEvaluated at hev
  simp only [Bool.and_eq_true, beq_iff_eq, linked.call.length_eq_llvmArgSize_iff] at hev
  obtain ⟨⟨⟨-, hcon⟩, -⟩, -⟩ := hev
  obtain ⟨param, hp⟩ : ∃ param, linked.params[i]? = some param := ⟨_, getElem?_eq_getElem hi⟩
  have hlen : i < linked.exprs.length := linked.call.length_exprs ▸ hi
  obtain ⟨expr, hexpr⟩ : ∃ expr, linked.exprs[i]? = some expr := ⟨_, getElem?_eq_getElem hlen⟩
  have hc := hcon _ (mem_of_getElem? (getElem?_builtArgs hp hexpr))
  unfold entersGraph isBuilt
  rw [hp, hexpr]
  by_cases hv : param.valueType = .value
  · simp [hv]
  · have hbd : program.buildArg param expr.variable_ =
        program.buildReferenceArg param expr.variable_ := if_pos hv
    rw [hbd] at hc
    simp [hbd, buildReferenceArg_isSome hc]

end

/-! ## Calls -/

omit hlocked in
theorem isEffective_of_no_params (h : linked.params = []) (pollution : ReferencePollution) :
    linked.isEffective pollution = false := by
  unfold isEffective
  rw [h]
  rfl

omit hlocked in
theorem not_required_of_no_params (h : linked.params = []) (G : ReferencesGraph V) (l : Link V) :
    ¬ linked.Required G l := by
  have hns : ∀ ref v, ¬ linked.Names ref v := by
    rintro ref v ⟨param, hp, -⟩
    rw [h] at hp
    cases hp
  rintro ((⟨-, ref, -, ⟨⟨-, param, hp, -⟩, -⟩ | ⟨hsrc, -⟩⟩ | ⟨-, -, _, -, hsrc, -⟩) |
    ⟨pollution, -, heff, -⟩)
  · rw [h] at hp
    cases hp
  · exact hns _ _ hsrc
  · exact hns _ _ hsrc
  · rw [isEffective_of_no_params h] at heff
    cases heff

theorem not_entersGraph_of_released (hrel : linked.LocksReleased G)
    (hs : G.nodes.lookup (linked.node (.arg i)) = locked.graph.nodes.lookup
      (linked.node (.arg i))) : linked.entersGraph i = false := by
  by_contra hent
  rw [Bool.not_eq_false] at hent
  rw [hlocked.argState, if_pos hent] at hs
  obtain ⟨hmem, hmvd⟩ := not_moved_of_lookup hs
  exact hmvd (hrel (.arg i) rfl hmem).1

theorem linksSafely_of_fails (hfl : linked.evaluationFails = true)
    (hrel : linked.LocksReleased locked.graph) : linked.LinksSafely locked.graph := by
  have hps : linked.params = [] := by
    by_contra hne
    have hent := entersGraph_of_fails hfl (length_pos_iff.2 hne)
    rw [not_entersGraph_of_released hlocked hrel rfl] at hent
    cases hent
  refine ⟨?_, ?_, ?_, ?_⟩
  · intro i param hp
    rw [hps] at hp
    cases hp
  · intro pollution _ heff
    rw [isEffective_of_no_params hps] at heff
    cases heff
  · exact fun _ => hps
  · intro pollution _ heff
    rw [isEffective_of_no_params hps] at heff
    cases heff

theorem linksSafely_of_links (hfl : linked.evaluationFails = false) {fuel : Nat} {ls : Reported V}
    (hlks : linked.linkAll locked fuel = some ls)
    (hrel : linked.LocksReleased (linked.moveAll locked ls.1)) :
    linked.LinksSafely locked.graph := by
  obtain ⟨hrets, hadds⟩ := linked.linkAll_spec locked hlks
  have hpol := fun pollution hmem =>
    (pollutionReturns_iff hlocked pollution).1 (hrets pollution hmem)
  refine ⟨?_, ?_, ?_, ?_⟩
  · intro i param hp hv
    by_contra hbt
    rw [Bool.not_eq_true] at hbt
    have hs := lookup_moveAll_of_rejected hlocked hadds.nodes hbt
    rw [← hlocked.argState] at hs
    have hent := not_entersGraph_of_released hlocked hrel hs
    unfold entersGraph at hent
    rw [hp] at hent
    simp [hv] at hent
  · exact fun pollution hmem => (hpol pollution hmem).1
  · intro h
    rw [hfl] at h
    cases h
  · exact fun pollution hmem => (hpol pollution hmem).2

theorem locksReleased_of_no_params (hps : linked.params = []) :
    linked.LocksReleased locked.graph := by
  intro n hn hmem
  rw [← AList.lookup_isSome] at hmem
  cases n with
  | arg i =>
    have hent : linked.entersGraph i = false := by
      by_contra h
      have hlt := linked.lt_of_entersGraph (Bool.not_eq_false _ ▸ h)
      rw [hps] at hlt
      cases hlt
    rw [hlocked.argState, hent] at hmem
    cases hmem
  | secondOrder i tag =>
    have hset : linked.passSet i (.secondOrder i tag) = false := by
      by_contra h
      have hlt := linked.lt_of_passSet (Bool.not_eq_false _ ▸ h)
      rw [hps] at hlt
      cases hlt
    rw [hlocked.secondOrderState, hset] at hmem
    cases hmem
  | argInner i tag => cases hn
  | result => cases hn
  | resultInner tag => cases hn

theorem LinksSafely.of_hasBorrowEffect (hlkAs : linked.lockArgs = some locked)
    (h : linked.HasBorrowEffect) : linked.LinksSafely locked.graph := by
  obtain ⟨fuel, finished, hca, hrel, -⟩ := h
  unfold doCallFunction at hca
  obtain ⟨_, hlocks, hca⟩ := Option.bind_eq_some_iff.1 hca
  cases Option.some.inj (hlkAs.symm.trans hlocks)
  cases hfl : linked.evaluationFails with
  | true =>
    rw [hfl] at hca
    cases hca
    exact linksSafely_of_fails hlocked hfl hrel
  | false =>
    rw [hfl] at hca
    have hca : (linked.linkAll locked fuel).bind (fun ls =>
        some ⟨locked, ls, linked.moveAll locked ls.1⟩) = some finished := hca
    obtain ⟨ls, hlks, hfin⟩ := Option.bind_eq_some_iff.1 hca
    cases hfin
    exact linksSafely_of_links hlocked hfl hlks hrel

theorem LinksSafely.hasBorrowEffect (hlkAs : linked.lockArgs = some locked)
    (h : linked.LinksSafely locked.graph) : linked.HasBorrowEffect := by
  unfold HasBorrowEffect doCallFunction
  rw [hlkAs]
  cases hfl : linked.evaluationFails with
  | true =>
    have hps := h.evaluation hfl
    refine ⟨0, _, rfl, locksReleased_of_no_params hlocked hps, fun _ => ?_⟩
    exact (Adds.refl locked.reported).congr fun l =>
      ⟨False.elim, not_required_of_no_params hps _ l⟩
  | false =>
    obtain ⟨fuel, ls, hlks⟩ := linked.linkAll_returns locked fun pollution hmem =>
      (pollutionReturns_iff hlocked pollution).2
        ⟨h.pollution pollution hmem, h.walks pollution hmem⟩
    obtain ⟨-, hadds⟩ := linked.linkAll_spec locked hlks
    refine ⟨fuel, ⟨locked, ls, linked.moveAll locked ls.1⟩, ?_, ?_, fun hall => ?_⟩
    · show (linked.linkAll locked fuel).bind _ = _
      rw [hlks]
      rfl
    · exact locksReleased_moveAll hlocked hadds.nodes h.valueArgs
    · exact hadds.congr fun l => required_iff hlocked hall l

omit hlocked in
theorem HasBorrowEffect.locks (h : linked.HasBorrowEffect) :
    linked.CastsFit ∧ ∃ locked, linked.lockArgs = some locked ∧ linked.Locked locked := by
  obtain ⟨fuel, finished, hca, -⟩ := h
  unfold doCallFunction at hca
  obtain ⟨locked, hlocks, -⟩ := Option.bind_eq_some_iff.1 hca
  have hcasts := linked.castsFit_of_lockArgs hlocks
  exact ⟨hcasts, linked.lockArgs_returns hcasts⟩

omit hlocked in
/-- A call whose casts fit locks its arguments, and from that state on it has the borrow effect of
its type exactly if it links safely.  Another call does not have it. -/
theorem hasBorrowEffect_iff : (linked.HasBorrowEffect → linked.CastsFit) ∧
    (linked.CastsFit → ∃ locked, linked.lockArgs = some locked ∧
      (linked.HasBorrowEffect ↔ linked.LinksSafely locked.graph)) := by
  refine ⟨fun h => h.locks.1, fun hcasts => ?_⟩
  obtain ⟨locked, hlkAs, hlocked⟩ := linked.lockArgs_returns hcasts
  exact ⟨locked, hlkAs, .of_hasBorrowEffect hlocked hlkAs,
    LinksSafely.hasBorrowEffect hlocked hlkAs⟩

end LinkedCall

/-! ## A call with a rejected argument -/

open LexSynt

/-- `struct S{ i32& r; }` -/
def withReference : Class := .declared .root (asciiText "S")

def borrowingProgram : CallArguments.Program where
  target := .bits64
  info _ := ⟨.struct_, [], false, true, 1⟩
  hasConversionConstructor _ _ := false
  getConversionConstructor _ _ := none
  rank _ := 0
  rank_parent _ _ hparent := nomatch hparent
  canBeParent _ _ hparent := nomatch hparent
  kind_of_constexpr _ _ := rfl
  selected _ _ h := nomatch h
  class_of_selected _ _ _ h := nomatch h

/-- `f( s, 5 )` through a pointer `fn( S &mut a, S& b ) @( pollution )`. -/
def polluteCall : CallArguments.Call borrowingProgram where
  functionType := ⟨[⟨.classType withReference, .referenceMut⟩,
    ⟨.classType withReference, .referenceImut⟩], ⟨.fundamental .void_, .value⟩, false⟩
  isRealFunction := false
  returnsByPointer := false
  preevaluatedArgs := []
  args := [{
    type := .classType withReference
    valueType := .referenceMut
    constexprValue := none
    hasOutgoingMutableNodes := false
    value := .aggregate (.classStruct withReference) []
    llvmType_value := rfl
    value_of_constexpr := nofun }, {
    type := CallArguments.i32
    valueType := .value
    constexprValue := some (.scalar (.integer 32) 5)
    hasOutgoingMutableNodes := false
    value := .scalar (.integer 32) 5
    llvmType_value := rfl
    value_of_constexpr := fun _ h => Option.some.inj h }]
  evaluateArgsInReverseOrder := false
  isInUnsafeBlock := false
  funcIsConstexpr := false
  length_args := rfl
  first_param_of_reverse h := nomatch h
  params_of_constexpr h := nomatch h
  composite_of_byPointer h := nomatch h

/-- The variable `s`, its inner reference, and the value 5. -/
inductive CallerNode where
  | s | sInner | five
deriving DecidableEq

def polluteInnerNodes : CallNode ⊕ CallerNode → List (CallNode ⊕ CallerNode)
  | .inl (.arg i) => if i < 2 then [.inl (.argInner i 0)] else []
  | .inr .s => [.inr .sInner]
  | _ => []

theorem polluteInnerNodes_bare {v i : CallNode ⊕ CallerNode} (h : i ∈ polluteInnerNodes v) :
    polluteInnerNodes i = [] ∧ polluteInnerNodes v ≠ [] := by
  refine ⟨?_, List.ne_nil_of_mem h⟩
  unfold polluteInnerNodes at h
  split at h
  · split at h
    · rw [List.mem_singleton.1 h]
      rfl
    · cases h
  · rw [List.mem_singleton.1 h]
    rfl
  · cases h

def polluteNodes : VariableNodes (CallNode ⊕ CallerNode) where
  parent _ := none
  children _ := []
  innerReferenceNodes := polluteInnerNodes
  height v := (polluteInnerNodes v).length
  mem_children _ _ := ⟨nofun, nofun⟩
  height_child _ _ h := (nomatch h)
  height_inner v i h := by
    obtain ⟨hbare, hne⟩ := polluteInnerNodes_bare h
    rw [hbare]
    exact List.length_pos_iff.2 hne
  inner_bare v i h := ⟨rfl, rfl, (polluteInnerNodes_bare h).1⟩
  valueType
    | .inl (.arg 0) | .inl (.argInner 0 _) | .inr .s => .referenceMut
    | .inr .five => .value
    | _ => .referenceImut
  isInnerReferenceNode
    | .inl (.argInner ..) | .inr .sInner => true
    | _ => false
  isVariableInnerReferenceNode v := v == .inr .sInner
  depth _ := 0
  depth_parent _ _ h := (nomatch h)

/-- The pollution links the inner reference of the second argument to that of the first one. -/
def polluteLinkedCall : LinkedCall borrowingProgram (CallNode ⊕ CallerNode) where
  call := polluteCall
  returnReferences := []
  returnInnerReferences := []
  referencesPollution := [⟨⟨0, 0⟩, ⟨1, 0⟩⟩]
  secondOrderInnerReferenceKind _ _ := none
  evaluateConstexpr _ := ⟨none, []⟩
  vars := polluteNodes
  node := .inl
  exprNode i := if i = 0 then .inr .s else .inr .five
  convertedNode _ := .inr .five
  buildExpressionCode _ G := G
  convertVariable _ G := G
  destroyUnusedTemporaryVariables _ G := G
  start := ⟨((∅ : AList fun _ => NodeState).insert (.inr .s) {}).insert (.inr .sInner) {}, []⟩
  notMem_start n h := by
    rw [AList.mem_insert, AList.mem_insert] at h
    rcases h with h | h | h
    · cases h
    · cases h
    · exact AList.notMem_empty _ h
  untouched_start _ l h := nomatch h
  node_injective _ _ h := Sum.inl.inj h
  bare _ := ⟨rfl, rfl⟩
  owner v n h := by
    unfold polluteNodes polluteInnerNodes at h
    simp only at h
    split at h
    · rename_i i
      split at h
      · refine ⟨.arg i, rfl, ?_⟩
        rw [Sum.inl.inj (List.mem_singleton.1 h)]
        exact beq_self_eq_true i
      · cases h
    · cases List.mem_singleton.1 h
    · cases h
  inner_arg i param h := by
    match i with
    | 0 => rw [← Option.some.inj h]; rfl
    | 1 => rw [← Option.some.inj h]; rfl
    | _ + 2 => cases h
  inner_result := rfl
  inner_passed i param expr hp hexpr hpassable := by
    match i with
    | 0 =>
      rw [← Option.some.inj hp, ← Option.some.inj hexpr]
      decide +kernel
    | 1 =>
      rw [← Option.some.inj hp, ← Option.some.inj hexpr] at hpassable
      exact absurd hpassable (by decide +kernel)
    | _ + 2 => cases hp
  exprNode_ne i n h := by
    split at h <;> cases h
  convertedNode_ne _ _ h := (nomatch h)
  foreign_build _ := ⟨fun _ _ => rfl, fun _ _ h => h⟩
  foreign_convert _ := ⟨fun _ _ => rfl, fun _ _ h => h⟩
  foreign_destroy _ := ⟨fun _ _ => rfl, fun _ _ h => h⟩

/-- The inner references of an argument without a node are read. -/
theorem not_hasBorrowEffect_pollution : ¬ polluteLinkedCall.HasBorrowEffect := by
  intro h
  obtain ⟨-, locked, hlocks, hlocked⟩ := h.locks
  have hsafe := LinkedCall.LinksSafely.of_hasBorrowEffect hlocked hlocks h
  have heffective : polluteLinkedCall.isEffective ⟨⟨0, 0⟩, ⟨1, 0⟩⟩ = true := by decide +kernel
  have hbuilt := (hsafe.pollution _ List.mem_cons_self heffective).1 (by decide)
  have hrejected : polluteLinkedCall.isBuilt 1 = false := by decide +kernel
  rw [show polluteLinkedCall.isBuilt 1 = true from hbuilt] at hrejected
  cases hrejected

end CallReferences
end WithArgs
end CodeBuilder
end USprache
