import USprache.CodeBuilder.LoopBodies

/-!
# Loop states

The body of a loop is analysed once, and the graph behind it is compared with the one before it.
A body that moves none of the nodes from before it, and gives the inner reference nodes of their
variables no new inputs, lets nothing new be reached, so its state is the same after any number
of iterations.
-/

namespace USprache.CodeBuilder.ReferencesGraph

open Relation List Option

variable {V : Type} [DecidableEq V]

/-- `GetNodeInputLinks`: the nodes with links into a node or one of the parents above it. -/
def getNodeInputLinks (vars : VariableNodes V) (G : ReferencesGraph V) (node : V) : List V :=
  ((parentChain vars (vars.depth node) node).flatMap G.srcNodes).dedup

inductive LoopError (V : Type) where
  | outerVariableMoveInsideLoop (node : V)
  | referencePollutionOfOuterLoopVariable (node newlyLinkedNode : V)
deriving DecidableEq

/-- `CheckVariablesStateAfterLoop`.  It asserts that the nodes from before the loop are present
after it. -/
def checkVariablesStateAfterLoop (vars : VariableNodes V)
    (stateBefore stateAfter : ReferencesGraph V) : List (LoopError V) :=
  stateBefore.nodes.entries.flatMap fun varBefore =>
    let node := varBefore.1
    let moveErrors :=
      match stateAfter.nodes.lookup node with
      | some state =>
        if !varBefore.2.moved && state.moved then [.outerVariableMoveInsideLoop node] else []
      | none => []
    let pollutionErrors :=
      if vars.valueType node = .value then
        (vars.innerReferenceNodes node).flatMap fun innerReferenceNode =>
          ((getNodeInputLinks vars stateAfter innerReferenceNode).filter
            fun src => src ∉ getNodeInputLinks vars stateBefore innerReferenceNode).map
              (.referencePollutionOfOuterLoopVariable node)
      else []
    moveErrors ++ pollutionErrors

theorem mem_getNodeInputLinks {vars : VariableNodes V} {G : ReferencesGraph V} {v n src : V}
    (hnode : n ∈ vars.innerReferenceNodes v) :
    src ∈ getNodeInputLinks vars G n ↔ ⟨src, n⟩ ∈ G.links := by
  have hcha : parentChain vars (vars.depth n) n = [n] := by
    cases vars.depth n with
    | zero => rfl
    | succ d => rw [parentChain, (vars.inner_bare v n hnode).1]
  unfold getNodeInputLinks
  rw [hcha, mem_dedup, flatMap_singleton]
  exact mem_srcNodes

structure Unchanged (vars : VariableNodes V) (before after : ReferencesGraph V) : Prop where
  unmoved : ∀ v state state', before.nodes.lookup v = some state →
    after.nodes.lookup v = some state' → state'.moved = true → state.moved = true
  inputs : ∀ v ∈ before.nodes, vars.valueType v = .value → ∀ i ∈ vars.innerReferenceNodes v,
    ∀ src, ⟨src, i⟩ ∈ after.links → ⟨src, i⟩ ∈ before.links

theorem checkVariablesStateAfterLoop_eq_nil (vars : VariableNodes V)
    (before after : ReferencesGraph V) :
    checkVariablesStateAfterLoop vars before after = [] ↔ Unchanged vars before after := by
  unfold checkVariablesStateAfterLoop
  simp only [flatMap_eq_nil_iff, append_eq_nil_iff]
  constructor
  · intro h
    constructor
    · intro v st st' hbef haf hmvd
      have hnode := (h ⟨v, st⟩ (AList.mem_lookup_iff.1 hbef)).1
      rw [haf] at hnode
      dsimp only at hnode
      by_contra hunm
      rw [Bool.not_eq_true] at hunm
      rw [hunm, hmvd] at hnode
      cases hnode
    · intro v hv hval i hi src hsrc
      obtain ⟨st, hs⟩ := isSome_iff_exists.1 (AList.lookup_isSome.2 hv)
      have hnode := (h ⟨v, st⟩ (AList.mem_lookup_iff.1 hs)).2
      rw [if_pos hval, flatMap_eq_nil_iff] at hnode
      have hfil := filter_eq_nil_iff.1 (map_eq_nil_iff.1 (hnode i hi)) src
        ((mem_getNodeInputLinks hi).2 hsrc)
      rw [decide_eq_true_eq, not_not] at hfil
      exact (mem_getNodeInputLinks hi).1 hfil
  · rintro ⟨hunm, hins⟩ ⟨v, st⟩ he
    have hbef := AList.mem_lookup_iff.2 he
    constructor
    · cases haf : after.nodes.lookup v with
      | none => rfl
      | some st' =>
        dsimp only
        rw [if_neg]
        intro h
        rw [Bool.and_eq_true] at h
        rw [hunm v st st' hbef haf h.2] at h
        cases h.1
    · by_cases hval : vars.valueType v = .value
      · rw [if_pos hval, flatMap_eq_nil_iff]
        intro i hi
        rw [map_eq_nil_iff, filter_eq_nil_iff]
        intro src hsrc
        rw [decide_eq_true_eq, not_not, mem_getNodeInputLinks hi]
        exact hins v (AList.lookup_isSome.1 (by rw [hbef]; rfl)) hval i hi src
          ((mem_getNodeInputLinks hi).1 hsrc)
      · rw [if_neg hval]

variable {vars : VariableNodes V} {before : ReferencesGraph V}

/-- One pass over the body says all about any number of passes. -/
structure LoopSound (vars : VariableNodes V) (before after : ReferencesGraph V) : Prop where
  moved : ∀ v ∈ before.nodes, after.IsMoved v → before.IsMoved v
  inputs : ∀ v ∈ before.nodes, vars.valueType v = .value → ∀ i ∈ vars.innerReferenceNodes v,
    ∀ x ∈ getAllAccessibleVariableNodes vars after i, x ∈ getAllAccessibleVariableNodes vars before i
  fixed : ∀ n, (mergeVariablesStateAfterIf (before :: replicate (n + 1) after)).2 = [] ∧
    SameState (mergeVariablesStateAfterIf (before :: replicate (n + 1) after)).1
      (mergeVariablesStateAfterIf [before, after]).1 ∧
    checkVariablesStateAfterLoop vars before
      (mergeVariablesStateAfterIf (before :: replicate (n + 1) after)).1 = [] ∧
    checkVariablesStateAfterLoop vars
      (mergeVariablesStateAfterIf (before :: replicate (n + 1) after)).1 after = []

variable {after : ReferencesGraph V}

theorem Unchanged.unmoved_after (h : Unchanged vars before after)
    (hout : Outlived before after) : Unmoved before after := by
  intro v st hv
  obtain ⟨st', hs', hmvd⟩ := hout v st hv
  have hmvd' := h.unmoved v st st' hv hs'
  have heq : st.moved = st'.moved := Bool.eq_iff_iff.2 ⟨hmvd, hmvd'⟩
  rw [hs']
  exact congrArg (fun moved => some (NodeState.mk moved)) heq.symm

theorem step_before (hown : ∀ i ∈ before.nodes, vars.isVariableInnerReferenceNode i = true →
      ∃ v ∈ before.nodes, vars.valueType v = .value ∧ i ∈ vars.innerReferenceNodes v)
    (hunc : Unchanged vars before after) (hrefs : SameReferences vars before after)
    {x y : V} (hy : y ∈ before.nodes) (h : Step vars.toVariables after x y) :
    Step vars.toVariables before x y := by
  rcases h with hlink | hpar
  · left
    cases hin : vars.isVariableInnerReferenceNode y with
    | false => exact hrefs ⟨x, y⟩ hlink hy hin
    | true =>
      obtain ⟨v, hv, hval, hi⟩ := hown y hy hin
      exact hunc.inputs v hv hval y hi x hlink
  · exact .inr hpar

theorem accessible_before (hbef : before.WellFormed vars.toVariables)
    (hown : ∀ i ∈ before.nodes, vars.isVariableInnerReferenceNode i = true →
      ∃ v ∈ before.nodes, vars.valueType v = .value ∧ i ∈ vars.innerReferenceNodes v)
    (hunc : Unchanged vars before after) (hrefs : SameReferences vars before after)
    {v i x : V} (hv : v ∈ before.nodes) (hval : vars.valueType v = .value)
    (hi : i ∈ vars.innerReferenceNodes v)
    (hx : x ∈ getAllAccessibleVariableNodes vars after i) :
    x ∈ getAllAccessibleVariableNodes vars before i := by
  rw [mem_getAllAccessibleVariableNodes] at hx ⊢
  refine ⟨hx.1, ?_⟩
  have hfst : ∀ y, Step vars.toVariables after y i → Step vars.toVariables before y i := by
    rintro y (hlink | hpar)
    · exact .inl (hunc.inputs v hv hval i hi y hlink)
    · exact .inr hpar
  -- Behind its first step a path backwards stays among the nodes from before the loop.
  have hp : ∀ y, ReflTransGen (Step vars.toVariables after) y i → y = i ∨
      (y ∈ before.nodes ∧ ReflTransGen (Step vars.toVariables before) y i) := by
    intro y h
    induction h using ReflTransGen.head_induction_on with
    | refl => exact .inl rfl
    | @head y z hyz _ ih =>
      right
      rcases ih with rfl | ⟨hz, hrch⟩
      · have hst := hfst y hyz
        rcases hst with hlink | hpar
        · exact ⟨hbef.src_mem _ hlink, .single (.inl hlink)⟩
        · rw [(vars.inner_bare v z hi).1] at hpar
          cases hpar
      · have hst := step_before hown hunc hrefs hz hyz
        exact ⟨hbef.step_mem hst hz, .head hst hrch⟩
  rcases hp x hx.2 with rfl | ⟨-, hrch⟩
  · exact .refl
  · exact hrch

theorem fixed_state (hout : Outlived before after) (hunc : Unchanged vars before after) (n : Nat) :
    (mergeVariablesStateAfterIf (before :: replicate (n + 1) after)).2 = [] ∧
      SameState (mergeVariablesStateAfterIf (before :: replicate (n + 1) after)).1
        (mergeVariablesStateAfterIf [before, after]).1 ∧
      Unchanged vars before (mergeVariablesStateAfterIf (before :: replicate (n + 1) after)).1 ∧
      Unchanged vars (mergeVariablesStateAfterIf (before :: replicate (n + 1) after)).1 after := by
  have hmem : ∀ B, B ∈ before :: replicate (n + 1) after ↔ B = before ∨ B = after := by
    intro B
    rw [mem_cons, mem_replicate]
    exact or_congr_right ⟨And.right, fun h => ⟨Nat.succ_ne_zero n, h⟩⟩
  have hunm := hunc.unmoved_after hout
  have hagr : ∀ v st st', before.nodes.lookup v = some st →
      after.nodes.lookup v = some st' → st.moved = st'.moved := by
    intro v st st' hs hs'
    rw [hunm v st hs] at hs'
    rw [some.inj hs']
  have hcl : (mergeVariablesStateAfterIf (before :: replicate (n + 1) after)).2 = [] := by
    rw [eq_nil_iff_forall_not_mem]
    intro e he
    obtain ⟨v, -, B, hB, B', hB', st, st', hs, hs', hne⟩ := (mem_errors_merge _ e).1 he
    rcases (hmem B).1 hB with rfl | rfl <;> rcases (hmem B').1 hB' with rfl | rfl
    · rw [hs] at hs'
      cases hs'
      exact hne rfl
    · exact hne (hagr v st st' hs hs')
    · exact hne (hagr v st' st hs' hs).symm
    · rw [hs] at hs'
      cases hs'
      exact hne rfl
  have hlks : ∀ l, l ∈ (mergeVariablesStateAfterIf (before :: replicate (n + 1) after)).1.links ↔
      l ∈ before.links ∨ l ∈ after.links := by
    intro l
    rw [(mem_mergeVariablesStateAfterIf _).2.1]
    simp only [hmem, or_and_right, exists_or, exists_eq_left]
  refine ⟨hcl, ⟨fun v => ?_, fun l => ?_⟩, ⟨fun v st st' hs hmer hmvd => ?_, ?_⟩,
    fun v st st' hmer hs' hmvd => ?_, fun v _ _ i _ src hsrc => ?_⟩
  · rw [lookup_merge, lookup_merge]
    unfold firstState
    rw [replicate_succ]
    simp only [findSome?_cons, findSome?_nil]
    cases before.nodes.lookup v with
    | some st => rfl
    | none =>
      cases haf : after.nodes.lookup v with
      | some st => rfl
      | none =>
        rw [findSome?_eq_none_iff]
        intro B hB
        rw [eq_of_mem_replicate hB]
        exact haf
  · rw [hlks, (mem_mergeVariablesStateAfterIf _).2.1]
    simp only [mem_cons, not_mem_nil, or_false, or_and_right, exists_or, exists_eq_left]
  · rw [lookup_merge_of_mem hcl ((hmem before).2 (.inl rfl)) hs] at hmer
    rw [some.inj hmer]
    exact hmvd
  · intro v hv hval i hi src hsrc
    rcases (hlks _).1 hsrc with hsrc | hsrc
    · exact hsrc
    · exact hunc.inputs v hv hval i hi src hsrc
  · rw [lookup_merge_of_mem hcl ((hmem after).2 (.inr rfl)) hs'] at hmer
    rw [← some.inj hmer]
    exact hmvd
  · exact (hlks _).2 (.inr hsrc)

/-- If the check reports nothing, one pass over the body is enough. -/
theorem checkVariablesStateAfterLoop_sound (vars : VariableNodes V) (before : ReferencesGraph V)
    (body : List (Call V)) (hbefore : before.WellFormed vars.toVariables)
    (howners : ∀ i ∈ before.nodes, vars.isVariableInnerReferenceNode i = true →
      ∃ v ∈ before.nodes, vars.valueType v = .value ∧ i ∈ vars.innerReferenceNodes v)
    (hbody : RunWithin vars (LoopBodyCall vars before) CleanMerge body before)
    (hcheck : checkVariablesStateAfterLoop vars before (run vars body before) = []) :
    LoopSound vars before (run vars body before) := by
  have hstart : LoopInvariant vars before before :=
    ⟨fun v state hv => ⟨state, hv, id⟩, fun _ l hl _ _ => hl⟩
  have hinvariant := (loopInvariant_keptWithin hbefore).run body before hbody hstart
  have hunchanged := (checkVariablesStateAfterLoop_eq_nil vars _ _).1 hcheck
  have hunmoved := hunchanged.unmoved_after hinvariant.outlived
  constructor
  · intro v hv hmoved
    obtain ⟨state, hstate⟩ := isSome_iff_exists.1 (AList.lookup_isSome.2 hv)
    unfold IsMoved at hmoved ⊢
    rw [hunmoved v state hstate] at hmoved
    rw [hstate]
    exact hmoved
  · exact fun v hv hvalue i hi x hx =>
      accessible_before hbefore howners hunchanged (hinvariant.references hunmoved) hv hvalue hi hx
  · intro n
    obtain ⟨hclean, hsame, hfirst, hagain⟩ := fixed_state hinvariant.outlived hunchanged n
    exact ⟨hclean, hsame, (checkVariablesStateAfterLoop_eq_nil vars _ _).2 hfirst,
      (checkVariablesStateAfterLoop_eq_nil vars _ _).2 hagain⟩

/-- Variables `a` and `b` with an inner reference node each, a reference `r` that is read from `a`
and stored in `b`, a variable `x`, and a temporary reference `t`. -/
inductive StoredNode where
  | a | aInner | r | rInner | b | bInner | x | t
deriving DecidableEq

namespace StoredNode

def inner : StoredNode → List StoredNode
  | a => [aInner]
  | r => [rInner]
  | b => [bInner]
  | _ => []

end StoredNode

open StoredNode

def storedNodes : VariableNodes StoredNode where
  parent _ := none
  children _ := []
  innerReferenceNodes := inner
  height v := (inner v).length
  mem_children := by simp
  height_child := by simp
  height_inner v i h := by cases v <;> cases i <;> revert h <;> decide
  inner_bare v i h := by cases v <;> cases i <;> revert h <;> decide
  valueType v := if v = a ∨ v = b ∨ v = x then .value else .referenceImut
  isInnerReferenceNode v := v = aInner ∨ v = rInner ∨ v = bInner
  isVariableInnerReferenceNode v := v = aInner ∨ v = bInner
  depth _ := 0
  depth_parent := by simp

/-- `var A a; auto& r= a.Read(); var B b( r ); var i32 x= 0;` -/
def storedBefore : ReferencesGraph StoredNode :=
  run storedNodes [.addNode a, .addNode r, .tryAddLink aInner rInner, .addNode b,
    .tryAddLink rInner bInner, .addNode x] empty

theorem storedBefore_wellFormed : storedBefore.WellFormed storedNodes.toVariables := by
  refine (wellFormed_keptBy storedNodes).run _ empty ?_ (empty_wellFormed _)
  simp only [RunAlong, CallAlong, NodesPresent]
  decide +kernel

theorem storedBefore_owners : ∀ i ∈ storedBefore.nodes,
    storedNodes.isVariableInnerReferenceNode i = true →
      ∃ v ∈ storedBefore.nodes, storedNodes.valueType v = .value ∧
        i ∈ storedNodes.innerReferenceNodes v := by
  intro i _ hi
  cases i with
  | aInner => exact ⟨a, by decide +kernel⟩
  | bInner => exact ⟨b, by decide +kernel⟩
  | a => cases hi
  | r => cases hi
  | rInner => cases hi
  | b => cases hi
  | x => cases hi
  | t => cases hi

theorem t_madeInLoop : MadeInLoop storedNodes storedBefore t := by
  intro m hm
  have hsf : m = t := by
    rcases hm.cases_head with heq | ⟨c, hc, -⟩
    · exact heq.symm
    · cases hc
  rw [hsf]
  exact ⟨by decide +kernel, nofun⟩

theorem checkVariablesStateAfterLoop_sound_temporary : LoopSound storedNodes storedBefore
    (run storedNodes [.addNode t, .tryAddLink r t, .removeNode t] storedBefore) := by
  refine checkVariablesStateAfterLoop_sound storedNodes storedBefore _ storedBefore_wellFormed
    storedBefore_owners ?_ (by decide +kernel)
  simp only [RunWithin, CallWithin, LoopBodyCall]
  exact ⟨trivial, by decide +kernel, t_madeInLoop, trivial⟩

/-- `if( cond ) { a.Add( x ); move( a ); }` in the body: the merge reports the move, and what was
stored through `a` before the move is lost to the check. -/
def conditionalMove : List (Call StoredNode) :=
  [.mergeVariablesStateAfterIf [[], [.tryAddLink x aInner, .moveNode a]]]

theorem not_loopSound_conditionalMove :
    RunWithin storedNodes (LoopBodyCall storedNodes storedBefore) (· ≠ []) conditionalMove
        storedBefore ∧
      checkVariablesStateAfterLoop storedNodes storedBefore
        (run storedNodes conditionalMove storedBefore) = [] ∧
      ¬ LoopSound storedNodes storedBefore (run storedNodes conditionalMove storedBefore) := by
  refine ⟨?_, by decide +kernel, fun h => ?_⟩
  · simp only [conditionalMove, RunWithin, CallWithin, BranchesWithin, LoopBodyCall,
      IsMoved]
    refine ⟨⟨⟨trivial, ⟨by decide +kernel, ⟨by decide +kernel, ?_⟩, trivial⟩, trivial⟩, nofun⟩,
      trivial⟩
    intro ha
    exact absurd (by decide +kernel) ha
  · have hinput := h.inputs b (by decide +kernel) (by decide +kernel) bInner (by decide +kernel) x
    revert hinput
    decide +kernel

end USprache.CodeBuilder.ReferencesGraph
