import USprache.CodeBuilder.LockedArgs

/-!
# Links of a call

The links made after a call are those that the type of the function names, between the nodes
that are not null.  The release leaves no link on the nodes of the arguments.
-/

namespace USprache.CodeBuilder.WithArgs.CallReferences.LinkedCall

open ReferencesGraph List

variable {prog : CallArguments.Program} {V : Type} [DecidableEq V] (linked : LinkedCall prog V)

section

variable (locked : ArgsNodes V)

theorem linkReference_adds (dst : V) (ref : ParamReference) (st : Reported V) :
    Adds (fun l => linked.referencedNode locked ref = some l.src ∧ l.dst = dst) st
      (linked.linkReference locked dst st ref) := by
  unfold linkReference
  cases linked.referencedNode locked ref with
  | none => exact (Adds.refl st).congr (fun l => ⟨False.elim, fun h => nomatch h.1⟩)
  | some src =>
    refine (tryLink_adds linked.vars st src dst).congr (fun l => ?_)
    constructor
    · rintro rfl
      exact ⟨rfl, rfl⟩
    · rintro ⟨hsrc, hdst⟩
      rw [← hdst, Option.some.inj hsrc]

def SecondOrderLink (reference : ParamReference) (l : Link V) : Prop :=
  reference.second ≠ paramReferenceNumber ∧
    locked.secondOrderReferenceNodes reference.first.toNat reference.second.toNat = some l.src ∧
    l.dst ∈ linked.vars.innerReferenceNodes (linked.node .result)

theorem linkSecondOrder_adds (ref : ParamReference) (st : Reported V) :
    Adds (linked.SecondOrderLink locked ref) st (linked.linkSecondOrder locked st ref) := by
  unfold linkSecondOrder SecondOrderLink
  by_cases hp : ref.second = paramReferenceNumber
  · rw [if_pos hp]
    exact (Adds.refl st).congr (fun l => ⟨False.elim, fun h => h.1 hp⟩)
  · rw [if_neg hp]
    cases locked.secondOrderReferenceNodes ref.first.toNat ref.second.toNat with
    | none => exact (Adds.refl st).congr (fun l => ⟨False.elim, fun h => nomatch h.2.1⟩)
    | some src =>
      refine (foldl_adds _ (fun dst _ st => tryLink_adds linked.vars st src dst) st).congr
        (fun l => ?_)
      constructor
      · rintro ⟨dst, hdst, rfl⟩
        exact ⟨hp, rfl, hdst⟩
      · rintro ⟨-, hsrc, hdst⟩
        exact ⟨l.dst, hdst, by rw [Option.some.inj hsrc]⟩

def ReturnLink (l : Link V) : Prop := linked.call.functionType.returned.valueType ≠ .value ∧
    ∃ reference ∈ linked.returnReferences, linked.SecondOrderLink locked reference l ∨
      linked.referencedNode locked reference = some l.src ∧ l.dst = linked.node .result

theorem linkReturnReferences_adds (st : Reported V) :
    Adds (linked.ReturnLink locked) st (linked.linkReturnReferences locked st) := by
  unfold linkReturnReferences ReturnLink
  by_cases hv : linked.call.functionType.returned.valueType ≠ .value
  · rw [if_pos hv]
    refine (foldl_adds _ (fun ref _ st =>
      (linked.linkSecondOrder_adds locked ref st).trans
        (linked.linkReference_adds locked (linked.node .result) ref _)) st).congr (fun l => ?_)
    exact ⟨fun h => ⟨hv, h⟩, And.right⟩
  · rw [if_neg hv]
    exact (Adds.refl st).congr (fun l => ⟨False.elim, fun h => hv h.1⟩)

def ReturnInnerLink (l : Link V) : Prop :=
  ∃ tag ∈ (linked.vars.innerReferenceNodes (linked.node .result)).zip linked.returnInnerReferences,
    ∃ reference ∈ tag.2, linked.referencedNode locked reference = some l.src ∧ l.dst = tag.1

theorem linkReturnInnerReferences_adds (st : Reported V) :
    Adds (linked.ReturnInnerLink locked) st (linked.linkReturnInnerReferences locked st) :=
  foldl_adds _ (fun tag _ st =>
    foldl_adds _ (fun ref _ st =>
      linked.linkReference_adds locked tag.1 ref st) st) st

def linkResult : Reported V :=
  linked.linkReturnInnerReferences locked (linked.linkReturnReferences locked locked.reported)

theorem linkResult_adds :
    Adds (fun l => linked.ReturnLink locked l ∨ linked.ReturnInnerLink locked l) locked.reported
      (linked.linkResult locked) :=
  (linked.linkReturnReferences_adds locked _).trans (linked.linkReturnInnerReferences_adds locked _)

variable (G : ReferencesGraph V)

/-- The nodes of a pollution are read without a null pointer, and the walk ends. -/
def PollutionReturns (pollution : ReferencePollution) : Prop :=
  linked.isEffective pollution = true →
    ∃ srcNode dstNode, linked.pollutionNode locked pollution.src = some srcNode ∧
      linked.pollutionNode locked pollution.dst = some dstNode ∧
      ∀ src dst, srcNode = some src → dstNode = some dst → Walkable linked.vars G dst

def PollutionLink (pollution : ReferencePollution) (l : Link V) : Prop :=
  linked.isEffective pollution = true ∧
    linked.pollutionNode locked pollution.src = some (some l.src) ∧
    ∃ dst, linked.pollutionNode locked pollution.dst = some (some dst) ∧
      Accessible linked.vars G dst l.dst

variable {fuel : Nat} {pollution : ReferencePollution}

theorem pollute_spec {G : ReferencesGraph V}
    {st st' : Reported V} (hst : SameInputs linked.vars G st.1)
    (h : linked.pollute locked fuel st pollution = some st') :
    SameInputs linked.vars G st'.1 ∧ linked.PollutionReturns locked G pollution ∧
      Adds (linked.PollutionLink locked G pollution) st st' := by
  unfold pollute at h
  unfold PollutionReturns PollutionLink
  by_cases heff : linked.isEffective pollution = true
  · rw [if_pos heff] at h
    obtain ⟨srcN, hsrcNd, h⟩ := Option.bind_eq_some_iff.1 h
    obtain ⟨dstN, hdstNd, h⟩ := Option.bind_eq_some_iff.1 h
    rw [hsrcNd, hdstNd]
    cases srcN with
    | none =>
      cases h
      refine ⟨hst, fun _ => ⟨_, _, rfl, rfl, fun _ _ hsrc => nomatch hsrc⟩,
        (Adds.refl st).congr (fun l => ⟨False.elim, fun h => nomatch h.2.1⟩)⟩
    | some src =>
      cases dstN with
      | none =>
        cases h
        refine ⟨hst, fun _ => ⟨_, _, rfl, rfl, fun _ _ _ hdst => nomatch hdst⟩,
          (Adds.refl st).congr (fun l => ⟨False.elim, ?_⟩)⟩
        rintro ⟨-, -, dst, hdst, -⟩
        cases hdst
      | some dst =>
        have hwal := walkLinks_spec src fuel dst st st' hst h
        refine ⟨hwal.sameInputs, fun _ => ⟨_, _, rfl, rfl, ?_⟩, hwal.adds.congr (fun l => ?_)⟩
        · intro _ dst' _ hdst
          cases hdst
          exact hwal.walkable
        · constructor
          · rintro ⟨hsrc, hacc⟩
            exact ⟨heff, by rw [hsrc], dst, rfl, hacc⟩
          · rintro ⟨-, hsrc, dst', hdst, hacc⟩
            cases hdst
            exact ⟨(Option.some.inj (Option.some.inj hsrc)).symm, hacc⟩
  · rw [if_neg heff] at h
    cases h
    exact ⟨hst, fun h => absurd h heff,
      (Adds.refl st).congr (fun l => ⟨False.elim, fun h => heff h.1⟩)⟩

theorem pollute_mono {fuel' : Nat} (hle : fuel ≤ fuel')
    {st st' : Reported V} (h : linked.pollute locked fuel st pollution = some st') :
    linked.pollute locked fuel' st pollution = some st' := by
  unfold pollute at h ⊢
  by_cases heff : linked.isEffective pollution = true
  · rw [if_pos heff] at h ⊢
    obtain ⟨srcN, hsrcNd, h⟩ := Option.bind_eq_some_iff.1 h
    obtain ⟨dstN, hdstNd, h⟩ := Option.bind_eq_some_iff.1 h
    rw [hsrcNd, hdstNd]
    cases srcN with
    | none => exact h
    | some src =>
      cases dstN with
      | none => exact h
      | some dst => exact walkLinks_mono src fuel fuel' dst st st' hle h
  · rw [if_neg heff] at h ⊢
    exact h

theorem pollute_returns {G : ReferencesGraph V} (h : linked.PollutionReturns locked G pollution) :
    ∃ fuel, ∀ st, SameInputs linked.vars G st.1 →
      ∃ st', linked.pollute locked fuel st pollution = some st' := by
  unfold pollute
  by_cases heff : linked.isEffective pollution = true
  · obtain ⟨srcN, dstN, hsrcNd, hdstNd, hwk⟩ := h heff
    cases hsrc : srcN with
    | none => exact ⟨0, fun st _ => ⟨st, by rw [if_pos heff, hsrcNd, hdstNd, hsrc]; rfl⟩⟩
    | some src =>
      cases hdst : dstN with
      | none =>
        exact ⟨0, fun st _ => ⟨st, by rw [if_pos heff, hsrcNd, hdstNd, hsrc, hdst]; rfl⟩⟩
      | some dst =>
        obtain ⟨fuel, hf⟩ := walkLinks_returns src (hwk src dst hsrc hdst)
        refine ⟨fuel, fun st hst => ?_⟩
        obtain ⟨st', hst'⟩ := hf st hst
        refine ⟨st', ?_⟩
        rw [if_pos heff, hsrcNd, hdstNd, hsrc, hdst]
        exact hst'
  · exact ⟨0, fun st _ => ⟨st, if_neg heff⟩⟩

theorem sameInputs_refl : SameInputs linked.vars G G := fun _ _ _ => Iff.rfl

theorem linkAll_spec {ls : Reported V} (h : linked.linkAll locked fuel = some ls) :
    (∀ pollution ∈ linked.referencesPollution,
      linked.PollutionReturns locked (linked.linkResult locked).1 pollution) ∧
    Adds (fun l => (linked.ReturnLink locked l ∨ linked.ReturnInnerLink locked l) ∨
      ∃ pollution ∈ linked.referencesPollution,
        linked.PollutionLink locked (linked.linkResult locked).1 pollution l)
      locked.reported ls := by
  have hstep : ∀ pollution ∈ linked.referencesPollution, ∀ st st',
      SameInputs linked.vars (linked.linkResult locked).1 st.1 →
      linked.pollute locked fuel st pollution = some st' →
      SameInputs linked.vars (linked.linkResult locked).1 st'.1 ∧
        linked.PollutionReturns locked (linked.linkResult locked).1 pollution ∧
        Adds (linked.PollutionLink locked (linked.linkResult locked).1 pollution) st st' :=
    fun _ _ _ _ hst h => linked.pollute_spec locked hst h
  obtain ⟨-, hrets, hadds⟩ := foldlM_adds
    _ hstep (linked.sameInputs_refl _) h
  exact ⟨hrets, (linked.linkResult_adds locked).trans hadds⟩

theorem linkAll_returns (h : ∀ pollution ∈ linked.referencesPollution,
    linked.PollutionReturns locked (linked.linkResult locked).1 pollution) :
    ∃ fuel ls, linked.linkAll locked fuel = some ls := by
  obtain ⟨fuel, hf⟩ := Library.exists_common_fuel (P := fun pollution fuel => ∀ st,
      SameInputs linked.vars (linked.linkResult locked).1 st.1 →
      ∃ st', linked.pollute locked fuel st pollution = some st')
    (fun pollution n m hle hn st hst => by
      obtain ⟨st', hst'⟩ := hn st hst
      exact ⟨st', linked.pollute_mono locked hle hst'⟩)
    (fun pollution hpol => linked.pollute_returns locked (h pollution hpol))
  obtain ⟨ls, hlks, -⟩ := Library.foldlM_returns
    (P := fun st : Reported V => SameInputs linked.vars (linked.linkResult locked).1 st.1)
    (linked.sameInputs_refl (linked.linkResult locked).1) (fun pollution hpol st hst => by
      obtain ⟨st', hst'⟩ := hf pollution hpol st hst
      exact ⟨st', hst', (linked.pollute_spec locked hst hst').1⟩)
  exact ⟨fuel, ls, hlks⟩

end

def IsReleased (G : ReferencesGraph V) (v : V) : Prop :=
  G.IsMoved v ∧ G.Untouched v ∧ ∀ i ∈ linked.vars.innerReferenceNodes v, G.Untouched i

theorem foldl_moveNode (ns : List V) (hown : ∀ v ∈ ns, ∃ n, v = linked.node n)
    (G : ReferencesGraph V) :
    let G' := ns.foldl (fun G node => G.moveNode linked.vars.toVariables node) G
    (∀ n, linked.node n ∈ ns ∨ linked.IsReleased G (linked.node n) →
        linked.IsReleased G' (linked.node n)) ∧
      ∀ n, linked.node n ∉ ns →
        G'.nodes.lookup (linked.node n) = G.nodes.lookup (linked.node n) := by
  induction ns generalizing G with
  | nil => exact ⟨fun n h => h.resolve_left not_mem_nil, fun _ _ => rfl⟩
  | cons v ns ih =>
    obtain ⟨m, rfl⟩ := hown v mem_cons_self
    have hbare := linked.bare m
    obtain ⟨hrel, hlk⟩ := ih (fun w hw => hown w (mem_cons_of_mem _ hw))
      (G.moveNode linked.vars.toVariables (linked.node m))
    refine ⟨fun n hn => hrel n ?_, fun n hn => ?_⟩
    · rcases hn with hn | ⟨hmvd, hunt, hin⟩
      · rcases mem_cons.1 hn with heq | hn
        · rw [heq]
          exact .inr (moveNode_released G hbare.1 hbare.2)
        · exact .inl hn
      · exact .inr ⟨hmvd.moveNode (linked.bare n).1 hbare.1 hbare.2,
          hunt.moveNode hbare.1 hbare.2,
          fun i hi => (hin i hi).moveNode hbare.1 hbare.2⟩
    · rw [mem_cons, not_or] at hn
      rw [foldl_cons, hlk n hn.2, lookup_moveNode G hn.1 (linked.bare n).1]

variable {linked} {locked : ArgsNodes V} (hlocked : linked.Locked locked)

include hlocked

theorem mem_lockedArgs {v : V} : v ∈ linked.lockedArgs locked ↔
    ∃ i, linked.isBuilt i = true ∧ v = linked.node (.arg i) := by
  rw [lockedArgs, mem_filterMap]
  constructor
  · rintro ⟨i, -, hi⟩
    rw [hlocked.argsNodes] at hi
    by_cases hbt : linked.isBuilt i = true
    · rw [if_pos hbt] at hi
      exact ⟨i, hbt, (Option.some.inj hi).symm⟩
    · rw [if_neg hbt] at hi
      cases hi
  · rintro ⟨i, hbt, rfl⟩
    exact ⟨i, mem_range.2 (linked.lt_of_isBuilt hbt), by
      rw [hlocked.argsNodes, if_pos hbt]⟩

theorem mem_lockedSecondOrder {v : V} : v ∈ linked.lockedSecondOrder locked ↔
    ∃ i tag, linked.passSet i (.secondOrder i tag) = true ∧
      v = linked.node (.secondOrder i tag) := by
  rw [lockedSecondOrder, mem_flatMap]
  constructor
  · rintro ⟨param, -, h⟩
    obtain ⟨tag, -, htag⟩ := mem_filterMap.1 h
    rw [hlocked.secondOrder] at htag
    by_cases hset : linked.passSet param.2 (.secondOrder param.2 tag) = true
    · rw [if_pos hset] at htag
      exact ⟨_, tag, hset, (Option.some.inj htag).symm⟩
    · rw [if_neg hset] at htag
      cases htag
  · rintro ⟨i, tag, hset, rfl⟩
    obtain ⟨param, hp⟩ : ∃ param, linked.params[i]? = some param :=
      ⟨_, getElem?_eq_getElem (linked.lt_of_passSet hset)⟩
    have htag : tag < prog.referenceTagCount param.type := by
      unfold passSet lockNodes secondOrderNodes at hset
      rw [hp] at hset
      simp only [Bool.and_eq_true, Bool.or_eq_true, any_eq_true, mem_range] at hset
      rcases hset with ⟨-, heq | ⟨t, ht, heq, -⟩⟩
      · simp at heq
      · have heq : tag = t := by simpa using heq
        omega
    refine ⟨(param, i), mk_mem_zipIdx_iff_getElem?.2 hp,
      mem_filterMap.2 ⟨tag, mem_range.2 htag, ?_⟩⟩
    rw [hlocked.secondOrder, if_pos hset]

/-- The nodes that are not null are released, and the states of the other nodes stay. -/
theorem moveAll_spec (G : ReferencesGraph V) : (∀ i, linked.isBuilt i = true →
        linked.IsReleased (linked.moveAll locked G) (linked.node (.arg i))) ∧
      (∀ i tag, linked.passSet i (.secondOrder i tag) = true →
        linked.IsReleased (linked.moveAll locked G) (linked.node (.secondOrder i tag))) ∧
      (∀ i, linked.isBuilt i = false →
        (linked.moveAll locked G).nodes.lookup (linked.node (.arg i)) =
          G.nodes.lookup (linked.node (.arg i))) ∧
      ∀ i tag, linked.passSet i (.secondOrder i tag) = false →
        (linked.moveAll locked G).nodes.lookup (linked.node (.secondOrder i tag)) =
          G.nodes.lookup (linked.node (.secondOrder i tag)) := by
  have hargs := linked.foldl_moveNode (linked.lockedArgs locked) (fun v hv => by
    obtain ⟨i, -, rfl⟩ := (mem_lockedArgs hlocked).1 hv
    exact ⟨_, rfl⟩) G
  have hsnd := linked.foldl_moveNode (linked.lockedSecondOrder locked) (fun v hv => by
    obtain ⟨i, tag, -, rfl⟩ := (mem_lockedSecondOrder hlocked).1 hv
    exact ⟨_, rfl⟩)
    ((linked.lockedArgs locked).foldl (fun G node => G.moveNode linked.vars.toVariables node) G)
  have harg : ∀ n, linked.node n ∈ linked.lockedArgs locked →
      ∃ i, linked.isBuilt i = true ∧ n = .arg i := by
    intro n hn
    obtain ⟨i, hbt, heq⟩ := (mem_lockedArgs hlocked).1 hn
    exact ⟨i, hbt, linked.node_injective _ _ heq⟩
  have hsndOrd : ∀ n, linked.node n ∈ linked.lockedSecondOrder locked →
      ∃ i tag, linked.passSet i (.secondOrder i tag) = true ∧ n = .secondOrder i tag := by
    intro n hn
    obtain ⟨i, tag, hset, heq⟩ := (mem_lockedSecondOrder hlocked).1 hn
    exact ⟨i, tag, hset, linked.node_injective _ _ heq⟩
  refine ⟨fun i hi => ?_, fun i tag h => ?_, fun i hi => ?_, fun i tag h => ?_⟩
  · exact hsnd.1 _ (.inr (hargs.1 _ (.inl ((mem_lockedArgs hlocked).2 ⟨i, hi, rfl⟩))))
  · exact hsnd.1 _ (.inl ((mem_lockedSecondOrder hlocked).2 ⟨i, tag, h, rfl⟩))
  · refine (hsnd.2 _ (fun hmem => ?_)).trans (hargs.2 _ (fun hmem => ?_))
    · obtain ⟨j, tag, -, heq⟩ := hsndOrd _ hmem
      cases heq
    · obtain ⟨j, hbt, heq⟩ := harg _ hmem
      cases heq
      rw [hi] at hbt
      cases hbt
  · refine (hsnd.2 _ (fun hmem => ?_)).trans (hargs.2 _ (fun hmem => ?_))
    · obtain ⟨j, t, hset, heq⟩ := hsndOrd _ hmem
      cases heq
      rw [h] at hset
      cases hset
    · obtain ⟨j, hbt, heq⟩ := harg _ hmem
      cases heq

end USprache.CodeBuilder.WithArgs.CallReferences.LinkedCall
