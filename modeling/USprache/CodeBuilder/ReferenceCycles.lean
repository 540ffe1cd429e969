import USprache.CodeBuilder.GraphRuns

/-!
# Cycles of references

Links between the inner reference nodes of variables may form cycles: a variable can
come to refer to something its own inner references lead to.  Among the other nodes a
cycle is harmful, since `TryAddLinkToAllAccessibleVariableNodesInnerReferences` walks
back over them without remembering where it was.

Removing or moving a variable can close such a cycle, and `TryAddLink` keeps cycles out for
mutable inner references only.  `NoReferenceLoop` is what the links of a run have to respect.
-/

namespace USprache.CodeBuilder.ReferencesGraph

open Library Relation List

variable {V : Type} [DecidableEq V]

def srcNodes (G : ReferencesGraph V) (node : V) : List V :=
  (G.links.filter (fun l => l.dst = node)).map Link.src

/-- The source nodes are collected before the graph changes. -/
def tryAddLinkToAllAccessibleVariableNodesInnerReferencesRec (vars : VariableNodes V) (src : V) :
    Nat → V → ReferencesGraph V × List (GraphError V) →
      Option (ReferencesGraph V × List (GraphError V))
  | 0, _, _ => none
  | fuel + 1, dst, st =>
    if vars.isVariableInnerReferenceNode dst then
      let res := st.1.tryAddLink vars src dst
      some (res.1, st.2 ++ res.2)
    else
      (st.1.srcNodes dst).foldlM (fun st node =>
          tryAddLinkToAllAccessibleVariableNodesInnerReferencesRec vars src fuel node st) st

/-- The visited nodes and the result set of the walk over links and parents. -/
def getAllAccessibleVariableNodesRec (vars : VariableNodes V) (G : ReferencesGraph V) :
    Nat → V → List V × List V → Option (List V × List V) :=
  traverse (G.inputs vars.toVariables)
    (fun node result => if vars.valueType node = .value then result.insert node else result)

/-- The walk goes on through inner reference nodes and collects the others it meets. -/
def getAllAccessibleNonInnerNodesRec (vars : VariableNodes V) (G : ReferencesGraph V) :
    Nat → V → List V × List V → Option (List V × List V) :=
  traverse (fun node => (G.srcNodes node).filter vars.isInnerReferenceNode) (fun node result =>
      ((G.srcNodes node).filter (fun src => !vars.isInnerReferenceNode src)).foldl
        (fun result src => result.insert src) result)

def ReferenceLink (vars : VariableNodes V) (G : ReferencesGraph V) (x y : V) : Prop :=
  ⟨x, y⟩ ∈ G.links ∧ vars.isVariableInnerReferenceNode x = false ∧
    vars.isVariableInnerReferenceNode y = false

variable {vars : VariableNodes V} {G : ReferencesGraph V}

theorem mem_srcNodes {x y : V} : x ∈ G.srcNodes y ↔ ⟨x, y⟩ ∈ G.links := by
  simp only [srcNodes, mem_map, mem_filter, decide_eq_true_eq]
  constructor
  · rintro ⟨⟨s, d⟩, ⟨hl, rfl⟩, rfl⟩
    exact hl
  · exact fun hl => ⟨⟨x, y⟩, ⟨hl, rfl⟩, rfl⟩

/-- What the walk does to the graph: links into other nodes than the inner reference
nodes of variables stay as they are. -/
def SameInputs (vars : VariableNodes V) (G G' : ReferencesGraph V) : Prop :=
  ∀ x y, vars.isVariableInnerReferenceNode y = false →
    ((⟨x, y⟩ : Link V) ∈ G'.links ↔ ⟨x, y⟩ ∈ G.links)

theorem SameInputs.tryAddLink {G' : ReferencesGraph V} (h : SameInputs vars G G') {src dst : V}
    (hdst : vars.isVariableInnerReferenceNode dst = true) :
    SameInputs vars G (G'.tryAddLink vars src dst).1 := by
  refine tryAddLink_keeps (P := SameInputs vars G) h (fun _ x y hy => ?_)
  rw [mem_addLink, h x y hy]
  refine or_iff_left ?_
  rintro ⟨-, he⟩
  injection he with _ hyd
  rw [hyd, hdst] at hy
  cases hy

open Classical in
/-- Without a cycle of references the walk returns.  The number of references that lead
to a node bounds its depth. -/
theorem tryAddLinkToAll_returns (hG : ∀ x, ¬ TransGen (ReferenceLink vars G) x x) (src : V) :
    ∀ fuel dst st, SameInputs vars G st.1 → (((G.links.map Link.src).toFinset).filter
        (fun a => TransGen (ReferenceLink vars G) a dst)).card + 2 ≤ fuel →
      ∃ st', tryAddLinkToAllAccessibleVariableNodesInnerReferencesRec vars src fuel dst st
          = some st' ∧ SameInputs vars G st'.1 := by
  intro fuel
  induction fuel with
  | zero => exact fun _ _ _ h => absurd h (by omega)
  | succ fuel ih =>
    intro dst st hst hf
    unfold tryAddLinkToAllAccessibleVariableNodesInnerReferencesRec
    by_cases hdst : vars.isVariableInnerReferenceNode dst = true
    · rw [if_pos hdst]
      exact ⟨_, rfl, hst.tryAddLink hdst⟩
    · rw [if_neg hdst]
      refine foldlM_returns (P := fun st : ReferencesGraph V × List (GraphError V) =>
        SameInputs vars G st.1) hst (fun x hx s hs => ?_)
      have hdst' : vars.isVariableInnerReferenceNode dst = false := by simpa using hdst
      have hl : (⟨x, dst⟩ : Link V) ∈ G.links := (hst x dst hdst').1 (mem_srcNodes.1 hx)
      by_cases hxi : vars.isVariableInnerReferenceNode x = true
      · -- The walk stops at the inner reference node of a variable.
        obtain ⟨k, rfl⟩ : ∃ k, fuel = k + 1 := ⟨fuel - 1, by omega⟩
        unfold tryAddLinkToAllAccessibleVariableNodesInnerReferencesRec
        rw [if_pos hxi]
        exact ⟨_, rfl, hs.tryAddLink hxi⟩
      · have hxr : ReferenceLink vars G x dst := ⟨hl, by simpa using hxi, hdst'⟩
        have hmem : x ∈ (G.links.map Link.src).toFinset :=
          mem_toFinset.2 (mem_map_of_mem (f := Link.src) hl)
        have hlt := card_ancestors_lt hG _ hmem hxr
        exact ih x s hs (by omega)

def parentChain (vars : VariableNodes V) : Nat → V → List V
  | 0, node => [node]
  | d + 1, node =>
    match vars.parent node with
    | none => [node]
    | some parent => node :: parentChain vars d parent

omit [DecidableEq V] in
theorem mem_parentChain_self (d : Nat) (n : V) : n ∈ parentChain vars d n := by
  cases d with
  | zero => exact mem_singleton_self n
  | succ d =>
    unfold parentChain
    split <;> exact mem_cons_self

omit [DecidableEq V] in
theorem parentChain_closed : ∀ d n, vars.depth n ≤ d →
    ∀ x ∈ parentChain vars d n, ∀ p, vars.parent x = some p → p ∈ parentChain vars d n := by
  intro d
  induction d with
  | zero =>
    intro n hd x hx p hp
    rw [mem_singleton.1 hx] at hp
    have := vars.depth_parent n p hp
    omega
  | succ d ih =>
    intro n hd x hx p hp
    unfold parentChain at hx ⊢
    cases hq : vars.parent n with
    | none =>
      rw [hq] at hx
      rw [mem_singleton.1 hx, hq] at hp
      cases hp
    | some q =>
      rw [hq] at hx
      have hlt := vars.depth_parent n q hq
      rcases mem_cons.1 hx with rfl | hx
      · rw [hp] at hq
        cases hq
        exact mem_cons_of_mem _ (mem_parentChain_self d p)
      · exact mem_cons_of_mem _ (ih q (by omega) x hx p hp)

def walkNodes (vars : VariableNodes V) (G : ReferencesGraph V) (node : V) : List V :=
  (node :: G.links.map Link.src).flatMap (fun v => parentChain vars (vars.depth v) v)

theorem walkNodes_closed (n : V) : ∀ x ∈ walkNodes vars G n,
    ∀ y ∈ G.inputs vars.toVariables x, y ∈ walkNodes vars G n := by
  intro x hx y hy
  obtain ⟨v, hv, hxv⟩ := mem_flatMap.1 hx
  rcases mem_inputs.1 hy with hl | hp
  · exact mem_flatMap.2 ⟨y, mem_cons_of_mem _ (mem_map.2 ⟨_, hl, rfl⟩),
      mem_parentChain_self _ y⟩
  · exact mem_flatMap.2 ⟨v, hv, parentChain_closed _ v (Nat.le_refl _) x hxv y hp⟩

omit [DecidableEq V] in
theorem mem_walkNodes_self (n : V) : n ∈ walkNodes vars G n :=
  mem_flatMap.2 ⟨n, mem_cons_self, mem_parentChain_self _ n⟩

theorem getAllAccessibleNodes_return (vars : VariableNodes V) (G : ReferencesGraph V) (n : V) :
    ∃ fuel, (∃ res, getAllAccessibleVariableNodesRec vars G fuel n ([], []) = some res) ∧
      ∃ res, getAllAccessibleNonInnerNodesRec vars G fuel n ([], []) = some res := by
  have hin : ∀ x ∈ walkNodes vars G n,
      ∀ y ∈ (G.srcNodes x).filter vars.isInnerReferenceNode, y ∈ walkNodes vars G n :=
    fun x hx y hy => walkNodes_closed n x hx y
      (mem_inputs.2 (.inl (mem_srcNodes.1 (mem_filter.1 hy).1)))
  refine ⟨unvisited (walkNodes vars G n) [] + 1, ?_, ?_⟩
  · obtain ⟨res, hres, -⟩ := traverse_returns (walkNodes_closed n) _ n ([], [])
      (mem_walkNodes_self n) (Nat.lt_succ_self _)
    exact ⟨res, hres⟩
  · obtain ⟨res, hres, -⟩ := traverse_returns hin _ n ([], [])
      (mem_walkNodes_self n) (Nat.lt_succ_self _)
    exact ⟨res, hres⟩

/-- A link that is made leads upwards in `r`.  The only links refused are those
`TryAddLink` reports as loops of mutable references. -/
def Ascends (vars : VariableNodes V) (r : V → V → Prop) : Call V → ReferencesGraph V → Prop
  | .addLink src dst, _ => r src dst
  | .tryAddLink src dst, G =>
    .creatingMutableReferencesLoop dst ∈ (G.tryAddLink vars src dst).2 ∨ r src dst
  | _, _ => True

/-- The links of a run, those of all its branches together, and the steps from nodes
to their children go up in one order.  Only inner reference nodes of variables may be
equivalent to other nodes in it: no loop leads from one of the other nodes through a
second one and back. -/
def NoReferenceLoop (vars : VariableNodes V) (calls : List (Call V)) : Prop :=
  ∃ r : V → V → Prop, (∀ x y z, r x y → r y z → r x z) ∧ (∀ c p, vars.parent c = some p → r p c) ∧
    (∀ x y, vars.isVariableInnerReferenceNode x = false →
      vars.isVariableInnerReferenceNode y = false → r x y → r y x → x = y) ∧
    RunAlong vars (Ascends vars r) calls empty

def Upward (r : V → V → Prop) (G : ReferencesGraph V) : Prop := ∀ l ∈ G.links, r l.src l.dst

section Upward

variable {r : V → V → Prop}

omit [DecidableEq V] in
theorem Upward.rewired (htr : ∀ x y z, r x y → r y z → r x z)
    (hpar : ∀ c p, vars.parent c = some p → r p c) {G' : ReferencesGraph V}
    (hG : G.Upward r) (h : Rewired vars.toVariables G G') : G'.Upward r := by
  have hst : ∀ x y, Step vars.toVariables G x y → r x y := by
    rintro x y (hxy | hp)
    · exact hG ⟨x, y⟩ hxy
    · exact hpar y x hp
  have hpth : ∀ x y, TransGen (Step vars.toVariables G) x y → r x y := by
    intro x y hxy
    induction hxy with
    | single hxy => exact hst _ _ hxy
    | tail _ hyz ih => exact htr _ _ _ ih (hst _ _ hyz)
  exact fun l hl => hpth _ _ (h.link l hl).2

theorem Upward.addLink (hG : G.Upward r) {x y : V} (hxy : r x y) : (G.addLink x y).Upward r := by
  intro l hl
  rcases mem_addLink.1 hl with hl | ⟨-, rfl⟩
  · exact hG l hl
  · exact hxy

theorem upward_keptBy (htr : ∀ x y z, r x y → r y z → r x z)
    (hpar : ∀ c p, vars.parent c = some p → r p c) :
    KeptBy vars (Ascends vars r) (Upward r) where
  addNode n G _ hG := hG.rewired htr hpar (.of_links_eq (addNode_links n).1)
  addNodeIfNotExists n G _ hG := hG.rewired htr hpar (.of_links_eq (addNode_links n).2)
  addLink x y G hc hG := hG.addLink hc
  tryAddLink x y G hc hG := tryAddLink_keeps hG (fun hmade => hG.addLink (hc.resolve_left hmade))
  removeNode n G _ hG := hG.rewired htr hpar (removeNode_rewired G n)
  moveNode n G _ hG := hG.rewired htr hpar (moveNode_rewired G n)
  merge branches h := by
    obtain ⟨-, hl, -⟩ := mem_mergeVariablesStateAfterIf branches
    intro l hmem
    obtain ⟨B, hB, hlB⟩ := (hl l).1 hmem
    exact h B hB l hlB

omit [DecidableEq V] in
/-- Links that are no loops and lead upwards close no cycle among nodes that are not
equivalent. -/
theorem Upward.no_reference_cycle (htr : ∀ x y z, r x y → r y z → r x z)
    (hanti : ∀ x y, vars.isVariableInnerReferenceNode x = false →
      vars.isVariableInnerReferenceNode y = false → r x y → r y x → x = y)
    (hG : G.Upward r) (hlp : ∀ l ∈ G.links, l.src ≠ l.dst) (x : V) :
    ¬ TransGen (ReferenceLink vars G) x x := by
  have hup : ∀ x y, TransGen (ReferenceLink vars G) x y → r x y := by
    intro x y hxy
    induction hxy with
    | single hxy => exact hG _ hxy.1
    | tail _ hyz ih => exact htr _ _ _ ih (hG _ hyz.1)
  intro hcy
  obtain ⟨y, hxy, hyx⟩ := TransGen.head'_iff.1 hcy
  rcases reflTransGen_iff_eq_or_transGen.1 hyx with rfl | hyx
  · exact hlp _ hxy.1 rfl
  · exact hlp _ hxy.1 (hanti x y hxy.2.1 hxy.2.2 (hG _ hxy.1) (hup y x hyx))

end Upward

/-- In a run without loops through two references no cycle of references arises, and
the walks over the graph it ends in all return. -/
theorem run_no_reference_cycle (vars : VariableNodes V) (calls : List (Call V))
    (h : NoReferenceLoop vars calls) :
    (∀ x, ¬ TransGen (ReferenceLink vars (run vars calls empty)) x x) ∧
      (∀ src dst errors, ∃ fuel res, tryAddLinkToAllAccessibleVariableNodesInnerReferencesRec
        vars src fuel dst (run vars calls empty, errors) = some res) ∧
      ∀ node, ∃ fuel,
        (∃ res, getAllAccessibleVariableNodesRec vars (run vars calls empty) fuel node ([], [])
          = some res) ∧
        ∃ res, getAllAccessibleNonInnerNodesRec vars (run vars calls empty) fuel node ([], [])
          = some res := by
  obtain ⟨r, htrans, hparent, hanti, hrun⟩ := h
  have hup : (run vars calls empty).Upward r :=
    (upward_keptBy htrans hparent).run calls empty hrun (by simp [Upward, empty])
  have hacyclic := hup.no_reference_cycle htrans hanti (run_simple vars calls).no_loop
  refine ⟨hacyclic, fun src dst errors => ?_, getAllAccessibleNodes_return vars _⟩
  obtain ⟨res, hres, -⟩ := tryAddLinkToAll_returns hacyclic src _ dst (run vars calls empty, errors)
    (fun _ _ _ => Iff.rfl) (Nat.le_refl _)
  exact ⟨_, res, hres⟩

/-- A variable `0` with the inner reference node `1`, the reference `2` to it with the
inner reference node `3`, and two references `4` and `5` read from the variable. -/
def readVariableNodes : VariableNodes (Fin 6) where
  parent _ := none
  children _ := []
  innerReferenceNodes v := if v = 0 then [1] else if v = 2 then [3] else []
  height v := if v = 0 ∨ v = 2 then 1 else 0
  mem_children := by simp
  height_child := by simp
  height_inner := by decide
  inner_bare := by decide
  valueType v := if v = 0 then .value else if v = 2 then .referenceMut else .referenceImut
  isInnerReferenceNode v := v = 1 ∨ v = 3
  isVariableInnerReferenceNode v := v = 1
  depth _ := 0
  depth_parent := by simp

/-- `auto& r1= v.r; auto& r2= v.r;` for a variable `v` with a reference member. -/
def readVariableCalls : List (Call (Fin 6)) :=
  [.addNode 0, .addNode 2, .addLink 0 2, .tryAddLink 1 3,
    .addNode 4, .tryAddLink 3 4, .addNode 5, .tryAddLink 3 5]

theorem run_no_reference_cycle_readVariable :
    (run readVariableNodes (readVariableCalls ++ [.moveNode 2, .moveNode 0]) empty).links = [] ∧
      ∀ x, ¬ TransGen (ReferenceLink readVariableNodes
        (run readVariableNodes (readVariableCalls ++ [.moveNode 2, .moveNode 0]) empty)) x x := by
  refine ⟨by decide +kernel, (run_no_reference_cycle _ _ ⟨fun x y => x.val < y.val, ?_, ?_, ?_, ?_⟩).1⟩
  · exact fun x y z hxy hyz => Nat.lt_trans hxy hyz
  · exact fun _ _ h => absurd h (by simp [readVariableNodes])
  · exact fun x y _ _ hxy hyx => absurd hyx (Nat.lt_asymm hxy)
  · simp only [readVariableCalls, cons_append, nil_append, RunAlong, CallAlong, Ascends]
    decide +kernel

/-- The discipline of the code builder: a node that is no inner reference node of a
variable receives a link only while no links lead out of it. -/
def FreshTarget (vars : VariableNodes V) : Call V → ReferencesGraph V → Prop
  | .addLink _ dst, G | .tryAddLink _ dst, G =>
    vars.isVariableInnerReferenceNode dst = false → G.hasOutgoingLinks vars dst = false
  | _, _ => True

/-- The two references are stored in the variable they were read from, by functions
that pollute its references, and then the variable is moved. -/
def pollutedVariableCalls : List (Call (Fin 6)) :=
  readVariableCalls ++ [.tryAddLink 4 1, .tryAddLink 5 1, .moveNode 2, .moveNode 0]

/-- Each reference now leads to the other, and the walk from one of them never ends. -/
theorem run_pollutedVariable_reference_cycle :
    RunAlong readVariableNodes (FreshTarget readVariableNodes) pollutedVariableCalls empty ∧
      RunAlong readVariableNodes (NodesPresent readVariableNodes) pollutedVariableCalls empty ∧
      TransGen (ReferenceLink readVariableNodes
        (run readVariableNodes pollutedVariableCalls empty)) 4 4 ∧
      ∀ fuel, tryAddLinkToAllAccessibleVariableNodesInnerReferencesRec readVariableNodes 0 fuel 4
        (run readVariableNodes pollutedVariableCalls empty, []) = none := by
  have hlinks : (run readVariableNodes pollutedVariableCalls empty).links = [⟨5, 4⟩, ⟨4, 5⟩] := by
    decide +kernel
  refine ⟨?_, ?_, ?_, ?_⟩
  · simp only [pollutedVariableCalls, readVariableCalls, cons_append, nil_append,
      RunAlong, CallAlong, FreshTarget]
    decide +kernel
  · simp only [pollutedVariableCalls, readVariableCalls, cons_append, nil_append,
      RunAlong, CallAlong, NodesPresent]
    decide +kernel
  · refine .tail (.single (b := 5) ?_) ?_
    · exact ⟨by rw [hlinks]; decide, by decide, by decide⟩
    · exact ⟨by rw [hlinks]; decide, by decide, by decide⟩
  · -- The walk alternates between the two references.
    have hturn : ∀ errors fuel,
        tryAddLinkToAllAccessibleVariableNodesInnerReferencesRec readVariableNodes 0 fuel 4
          (run readVariableNodes pollutedVariableCalls empty, errors) = none ∧
        tryAddLinkToAllAccessibleVariableNodesInnerReferencesRec readVariableNodes 0 fuel 5
          (run readVariableNodes pollutedVariableCalls empty, errors) = none := by
      intro errors fuel
      induction fuel with
      | zero => exact ⟨rfl, rfl⟩
      | succ fuel ih =>
        have h4 : (run readVariableNodes pollutedVariableCalls empty).srcNodes 4 = [5] := by
          rw [srcNodes, hlinks]; decide
        have h5 : (run readVariableNodes pollutedVariableCalls empty).srcNodes 5 = [4] := by
          rw [srcNodes, hlinks]; decide
        unfold tryAddLinkToAllAccessibleVariableNodesInnerReferencesRec
        rw [h4, h5, foldlM_cons, foldlM_cons, ih.1, ih.2]
        exact ⟨rfl, rfl⟩
    exact fun fuel => (hturn [] fuel).1

def getAllAccessibleVariableNodes (vars : VariableNodes V) (G : ReferencesGraph V) (node : V) :
    List V :=
  ((getAllAccessibleVariableNodesRec vars G ((walkNodes vars G node).length + 1) node
    ([], [])).getD ([], [])).2

theorem mem_getAllAccessibleVariableNodes {vs : VariableNodes V} {G : ReferencesGraph V}
    {n v : V} : v ∈ getAllAccessibleVariableNodes vs G n ↔
      vs.valueType v = .value ∧ ReflTransGen (Step vs.toVariables G) v n := by
  have hf : unvisited (walkNodes vs G n) ([] : List V) < (walkNodes vs G n).length + 1 :=
    Nat.lt_succ_of_le (length_filter_le _ _)
  obtain ⟨res, hres⟩ : ∃ res, getAllAccessibleVariableNodesRec vs G
      ((walkNodes vs G n).length + 1) n ([], []) = some res := by
    obtain ⟨res, hres, -⟩ := traverse_returns (walkNodes_closed n) _ n ([], [])
      (mem_walkNodes_self n) hf
    exact ⟨res, hres⟩
  have hcol : ∀ x, x ∈ res.2 ↔ x ∈ res.1 ∧ vs.valueType x = .value := by
    have hent : ∀ (n : V) (st : List V × List V),
        (∀ x, x ∈ st.2 ↔ x ∈ st.1 ∧ vs.valueType x = .value) →
        ∀ x, x ∈ (if vs.valueType n = .value then st.2.insert n else st.2) ↔
          x ∈ n :: st.1 ∧ vs.valueType x = .value := by
      intro n st hst x
      rw [mem_cons]
      by_cases hv : vs.valueType n = .value
      · rw [if_pos hv, mem_insert_iff, hst x]
        refine ⟨?_, fun h => h.1.imp_right fun hx => ⟨hx, h.2⟩⟩
        rintro (rfl | h)
        · exact ⟨.inl rfl, hv⟩
        · exact ⟨.inr h.1, h.2⟩
      · rw [if_neg hv, hst x]
        refine ⟨fun h => ⟨.inr h.1, h.2⟩, ?_⟩
        rintro ⟨rfl | hx, h⟩
        · exact absurd h hv
        · exact ⟨hx, h⟩
    exact traverse_keeps_both (P := fun st : List V × List V =>
        ∀ x, x ∈ st.2 ↔ x ∈ st.1 ∧ vs.valueType x = .value)
      (fun n st _ hst => hent n st hst) _ n ([], []) res (by simp) hres
  have hrch : ∀ x, ReflTransGen (fun x y => y ∈ G.inputs vs.toVariables x) n x ↔
      ReflTransGen (Step vs.toVariables G) x n := by
    intro x
    rw [← reflTransGen_swap]
    exact iff_of_eq (congrArg (fun r : V → V → Prop => ReflTransGen r x n)
      (funext fun a => funext fun b => propext mem_inputs))
  have hv : getAllAccessibleVariableNodes vs G n = res.2 := by
    unfold getAllAccessibleVariableNodes
    rw [hres]
    rfl
  rw [hv, hcol, (traverse_spec _ n ([], []) res hres).mem_iff, and_comm]
  refine and_congr_right fun _ => ?_
  rw [← hrch v]
  exact ⟨fun ⟨_, hy, h⟩ => hy ▸ h, fun h => ⟨n, rfl, h⟩⟩

end USprache.CodeBuilder.ReferencesGraph
